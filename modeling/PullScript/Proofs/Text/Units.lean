import PullScript.Proofs.Text.Utf8

namespace PullScript

variable {bytes rest ahead : Bytes} {unit : TextUnit}

namespace Utf8

def encode (text : List Char) : Bytes :=
  text.flatMap String.utf8EncodeChar

@[simp]
theorem encode_nil : encode [] = [] :=
  rfl

@[simp]
theorem encode_cons (c : Char) (text : List Char) : encode (c :: text) = String.utf8EncodeChar c ++ encode text :=
  List.flatMap_cons

theorem encode_append (text more : List Char) : encode (text ++ more) = encode text ++ encode more :=
  List.flatMap_append

def LongestText (bytes : Bytes) (text : List Char) : Prop :=
  encode text <+: bytes ∧ ∀ other, encode other <+: bytes → (encode other).length ≤ (encode text).length

def Stray (bytes : Bytes) : Prop :=
  ∀ c, ¬ String.utf8EncodeChar c <+: bytes

theorem char_unique {c d : Char} (hc : String.utf8EncodeChar c <+: bytes) (hd : String.utf8EncodeChar d <+: bytes) :
    c = d := by
  have h := front_eq_char_iff.2 hc
  rw [front_eq_char_iff.2 hd] at h
  cases h
  rfl

theorem exists_encode_append (bytes : Bytes) : ∃ text rest, bytes = encode text ++ rest ∧ Stray rest := by
  induction hlength : bytes.length using Nat.strongRecOn generalizing bytes with
  | _ length ih =>
    by_cases hchar : ∃ c, String.utf8EncodeChar c <+: bytes
    · obtain ⟨c, more, rfl⟩ := hchar
      have hpos := List.length_pos_iff.2 (String.utf8EncodeChar_ne_nil (c := c))
      obtain ⟨text, rest, rfl, hrest⟩ := ih more.length (by rw [← hlength, List.length_append]; omega) more rfl
      exact ⟨c :: text, rest, by simp, hrest⟩
    · exact ⟨[], bytes, rfl, fun c hc => hchar ⟨c, hc⟩⟩

theorem prefix_of_encode_prefix {other text : List Char} (hrest : Stray rest)
    (h : encode other <+: encode text ++ rest) : other <+: text := by
  induction other generalizing text with
  | nil => exact List.nil_prefix
  | cons c other ih =>
    rw [encode_cons] at h
    have hc := (List.prefix_append _ _).trans h
    cases text with
    | nil => exact absurd hc (hrest c)
    | cons d text =>
      rw [encode_cons, List.append_assoc] at h hc
      obtain rfl := char_unique hc (List.prefix_append _ _)
      exact List.cons_prefix_cons.2 ⟨rfl, ih ((List.prefix_append_right_inj _).1 h)⟩

theorem longestText_encode_append (text : List Char) (hrest : Stray rest) : LongestText (encode text ++ rest) text := by
  refine ⟨List.prefix_append _ _, fun other hother => ?_⟩
  obtain ⟨more, rfl⟩ := prefix_of_encode_prefix hrest hother
  simp [encode]

theorem front_of_stray (h : Stray bytes) (c : Char) : front bytes ≠ .char c :=
  fun hfront => h c (front_eq_char_iff.1 hfront)

end Utf8

namespace Grapheme

def goesOn (trail : Trail) : List Char → List Char
  | [] => []
  | c :: rest => if trail.accepts (classOf c) then c :: goesOn (trail.extend (classOf c)) rest else []

def firstCluster : List Char → List Char
  | [] => []
  | c :: rest => c :: goesOn (.start (classOf c)) rest

theorem goesOn_prefix (trail : Trail) (text : List Char) : goesOn trail text <+: text := by
  induction text generalizing trail with
  | nil => exact List.nil_prefix
  | cons c rest ih =>
    rw [goesOn]
    split
    · exact List.cons_prefix_cons.2 ⟨rfl, ih _⟩
    · exact List.nil_prefix

theorem firstCluster_prefix (text : List Char) : firstCluster text <+: text := by
  cases text with
  | nil => exact List.nil_prefix
  | cons c rest => exact List.cons_prefix_cons.2 ⟨rfl, goesOn_prefix _ rest⟩

end Grapheme

namespace TextUnit

open Utf8 Grapheme

theorem clusterFrom_skip (trail : Trail) (size : Nat) (own rest : Bytes) :
    clusterFrom trail size own.length (own ++ rest) = clusterFrom trail size 0 rest := by
  induction own with
  | nil => rfl
  | cons b own ih => rw [List.length_cons, List.cons_append, clusterFrom, ih]

theorem encodeChar_eq_cons (c : Char) : ∃ b own, String.utf8EncodeChar c = b :: own ∧ own.length = c.utf8Size - 1 := by
  cases h : String.utf8EncodeChar c with
  | nil => exact absurd h String.utf8EncodeChar_ne_nil
  | cons b own => exact ⟨b, own, rfl, by rw [← String.length_utf8EncodeChar, h]; rfl⟩

theorem size_clusterFrom (trail : Trail) (size : Nat) (text : List Char) (hrest : Stray rest) :
    (clusterFrom trail size 0 (encode text ++ rest)).size = size + (encode (goesOn trail text)).length := by
  induction text generalizing trail size with
  | nil =>
    cases rest with
    | nil => rfl
    | cons b rest =>
      have hfront := front_of_stray hrest
      rw [encode_nil, List.nil_append, clusterFrom, goesOn]
      cases hcase : Utf8.front (b :: rest) with
      | char c => exact absurd hcase (hfront c)
      | broken n => rfl
      | short => rfl
  | cons c text ih =>
    obtain ⟨b, own, hc, hown⟩ := encodeChar_eq_cons c
    have hfront : Utf8.front (b :: (own ++ (encode text ++ rest))) = .char c :=
      front_eq_char_iff.2 (by rw [hc]; exact ⟨encode text ++ rest, rfl⟩)
    rw [encode_cons, hc, List.cons_append, List.cons_append, List.append_assoc, clusterFrom, hfront, goesOn]
    simp only
    split
    · rw [← hown, clusterFrom_skip, ih, encode_cons, List.length_append, String.length_utf8EncodeChar]
      omega
    · rfl

def Stands (unit : TextUnit) (bytes ahead : Bytes) : Prop :=
  (match unit with
    | .codePoint => ∃ c, bytes = String.utf8EncodeChar c
    | .grapheme => ∃ text, LongestText ahead text ∧ text ≠ [] ∧ bytes = encode (firstCluster text)) ∨
    ∃ b, bytes = [b] ∧ Stray ahead

def cutFront (unit : TextUnit) (ahead : Bytes) : Bytes :=
  ahead.take (max (unit.front ahead).size 1)

theorem front_of_stray (unit : TextUnit) (h : Stray ahead) : (unit.front ahead).size = 0 := by
  cases ahead with
  | nil => rfl
  | cons b rest =>
    rw [front]
    cases hcase : Utf8.front (b :: rest) with
    | char c => exact absurd hcase (Utf8.front_of_stray h c)
    | broken n => rfl
    | short => rfl

theorem size_front_encode (unit : TextUnit) (c : Char) (text : List Char) (hrest : Stray rest) :
    (unit.front (encode (c :: text) ++ rest)).size =
      match unit with
      | .codePoint => (String.utf8EncodeChar c).length
      | .grapheme => (encode (firstCluster (c :: text))).length := by
  obtain ⟨b, own, hc, hown⟩ := encodeChar_eq_cons c
  have hfront : Utf8.front (b :: (own ++ (encode text ++ rest))) = .char c :=
    front_eq_char_iff.2 (by rw [hc]; exact ⟨encode text ++ rest, rfl⟩)
  rw [encode_cons, hc, List.cons_append, List.cons_append, List.append_assoc, front, hfront]
  cases unit with
  | codePoint => rw [← hc, String.length_utf8EncodeChar]
  | grapheme =>
    simp only
    rw [← hown, clusterFrom_skip, size_clusterFrom _ _ _ hrest, firstCluster, encode_cons, List.length_append,
      String.length_utf8EncodeChar]

theorem cutFront_eq {own : Bytes} (hown : own ≠ []) (hsize : (unit.front (own ++ rest)).size = own.length) :
    unit.cutFront (own ++ rest) = own := by
  have hpos := List.length_pos_iff.2 hown
  rw [cutFront, hsize, Nat.max_eq_left hpos, List.take_left]

theorem stands_cutFront (unit : TextUnit) (h : ahead ≠ []) : unit.Stands (unit.cutFront ahead) ahead := by
  obtain ⟨text, rest, rfl, hrest⟩ := exists_encode_append ahead
  cases text with
  | nil =>
    rw [encode_nil, List.nil_append] at h ⊢
    obtain ⟨b, more, rfl⟩ := List.exists_cons_of_ne_nil h
    refine .inr ⟨b, ?_, hrest⟩
    rw [cutFront, front_of_stray unit hrest]
    rfl
  | cons c text =>
    have hsize := size_front_encode unit c text hrest
    refine .inl ?_
    cases unit with
    | codePoint =>
      rw [encode_cons, List.append_assoc] at hsize ⊢
      exact ⟨c, cutFront_eq String.utf8EncodeChar_ne_nil hsize⟩
    | grapheme =>
      refine ⟨c :: text, longestText_encode_append _ hrest, List.cons_ne_nil c text, ?_⟩
      obtain ⟨more, hmore⟩ := firstCluster_prefix (c :: text)
      have hcut : encode (c :: text) ++ rest = encode (firstCluster (c :: text)) ++ (encode more ++ rest) := by
        rw [← List.append_assoc, ← encode_append, hmore]
      rw [hcut] at hsize ⊢
      exact cutFront_eq (by simp [firstCluster]) hsize

theorem cutFront_append_drop (unit : TextUnit) (ahead : Bytes) :
    unit.cutFront ahead ++ ahead.drop (max (unit.front ahead).size 1) = ahead :=
  List.take_append_drop _ _

theorem cutFront_append {pending : Bytes} (hpending : pending ≠ [])
    (h : (unit.front pending).settled = true ∨ rest = []) :
    unit.cutFront (pending ++ rest) = pending.take (max (unit.front pending).size 1) ∧
      (pending ++ rest).drop (max (unit.front (pending ++ rest)).size 1) =
        pending.drop (max (unit.front pending).size 1) ++ rest := by
  obtain hsettled | rfl := h
  · have hpos := List.length_pos_iff.2 hpending
    have hsize : max (unit.front pending).size 1 ≤ pending.length := Nat.max_le.2 ⟨size_front_le hsettled, hpos⟩
    rw [cutFront, front_append hsettled, List.take_append_of_le_length hsize, List.drop_append_of_le_length hsize]
    exact ⟨rfl, rfl⟩
  · simp only [List.append_nil, cutFront, and_self]

def cut (unit : TextUnit) (text : Bytes) : List Bytes :=
  if text = [] then [] else unit.cutFront text :: unit.cut (text.drop (max (unit.front text).size 1))
termination_by text.length
decreasing_by
  have hpos := List.length_pos_iff.2 ‹_›
  rw [List.length_drop]
  omega

theorem flatten_cut (unit : TextUnit) (text : Bytes) : (unit.cut text).flatten = text := by
  fun_induction cut unit text with
  | case1 => rfl
  | case2 text _ ih => rw [List.flatten_cons, ih, cutFront_append_drop]

theorem stands_of_cut {text : Bytes} {before after : List Bytes} (h : unit.cut text = before ++ bytes :: after) :
    unit.Stands bytes (bytes ++ after.flatten) := by
  fun_induction cut unit text generalizing before with
  | case1 => simp at h
  | case2 text hne ih =>
    cases before with
    | nil =>
      obtain ⟨rfl, rfl⟩ := List.cons.inj h
      rw [flatten_cut, cutFront_append_drop]
      exact stands_cutFront unit hne
    | cons first before => exact ih (List.cons.inj h).2

end TextUnit

end PullScript
