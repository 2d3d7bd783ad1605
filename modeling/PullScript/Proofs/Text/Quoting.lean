import Mathlib.Algebra.Group.Nat.Even
import Mathlib.Data.List.DropRight
import Mathlib.Tactic.IntervalCases
import PullScript.Bytes
import PullScript.Script.Token

namespace PullScript.Text

/-- The character that a letter behind a backslash stands for. -/
def unescaped? (letter : Char) : Option Char :=
  if letter = '"' ∨ letter = '\\' then some letter else Script.escaped? letter

/-- Reads quoted text behind its opening quote: the text, and what follows the closing quote. -/
def readQuoted : List Char → Option (List Char × List Char)
  | [] => none
  | '"' :: rest => some ([], rest)
  | '\\' :: 'x' :: high :: low :: rest => do
    let code := 16 * (← Bytes.hexDigit? high) + (← Bytes.hexDigit? low)
    (readQuoted rest).map fun (text, rest) => (Char.ofNat code :: text, rest)
  | '\\' :: letter :: rest => do
    let c ← unescaped? letter
    (readQuoted rest).map fun (text, rest) => (c :: text, rest)
  | c :: rest => (readQuoted rest).map fun (text, rest) => (c :: text, rest)

/-- Reads quoted text at the front of characters. -/
def unquoted? : List Char → Option (String × List Char)
  | '"' :: rest => (readQuoted rest).map fun (text, rest) => (String.ofList text, rest)
  | _ => none

theorem digitChar_cases {d : Nat} (h : d < 16) :
    Bytes.hexDigit? (Nat.digitChar d) = some d ∧ isControl (Nat.digitChar d) = false ∧
      Nat.digitChar d ≠ '"' ∧ Nat.digitChar d ≠ '\\' := by
  interval_cases d <;> decide

/-- How a character stands between quotes: as itself, as a backslash and a letter, or as a backslash and its
digits. -/
theorem quoteChar_cases (c : Char) :
    quoteChar c = [c] ∧ c ≠ '"' ∧ c ≠ '\\' ∧ isControl c = false ∨
      (∃ letter, quoteChar c = ['\\', letter] ∧ letter ≠ 'x' ∧ isControl letter = false ∧
        unescaped? letter = some c) ∨
      ∃ high low, high < 16 ∧ low < 16 ∧ c = Char.ofNat (16 * high + low) ∧
        quoteChar c = ['\\', 'x', Nat.digitChar high, Nat.digitChar low] := by
  cases hletter : escapeLetter? c with
  | some letter =>
    refine .inr (.inl ⟨letter, by simp only [quoteChar, hletter], ?_⟩)
    unfold escapeLetter? at hletter
    split at hletter <;> cases hletter <;> decide
  | none =>
    have hquote : c ≠ '"' := by rintro rfl; cases hletter
    have hbackslash : c ≠ '\\' := by rintro rfl; cases hletter
    cases hcontrol : isControl c with
    | false => exact .inl ⟨by simp [quoteChar, hletter, hcontrol], hquote, hbackslash, rfl⟩
    | true =>
      refine .inr (.inr ⟨c.toNat / 16, c.toNat % 16, ?_, Nat.mod_lt _ (by decide), ?_, ?_⟩)
      · simp only [isControl, Bool.or_eq_true, Bool.and_eq_true, decide_eq_true_eq] at hcontrol
        omega
      · rw [Nat.div_add_mod, Char.ofNat_toNat]
      · simp [quoteChar, hletter, hcontrol]

theorem readQuoted_quoteChar (c : Char) (rest : List Char) :
    readQuoted (quoteChar c ++ rest) = (readQuoted rest).map fun (text, rest) => (c :: text, rest) := by
  obtain ⟨hself, hquote, hbackslash, -⟩ | ⟨letter, hshort, hx, -, hmeans⟩ | ⟨high, low, hhigh, hlow, hc, hlong⟩ :=
    quoteChar_cases c
  · rw [hself]
    simp [readQuoted, hbackslash]
  · rw [hshort]
    simp [readQuoted, hx, hmeans]
  · rw [hlong, hc]
    simp [readQuoted, (digitChar_cases hhigh).1, (digitChar_cases hlow).1]

theorem readQuoted_flatMap (text rest : List Char) :
    readQuoted (text.flatMap quoteChar ++ '"' :: rest) = some (text, rest) := by
  induction text with
  | nil => rfl
  | cons c text ih => rw [List.flatMap_cons, List.append_assoc, readQuoted_quoteChar, ih]; rfl

theorem toList_quoted (text : String) :
    (quoted text).toList = '"' :: (text.toList.flatMap quoteChar ++ ['"']) := by
  simp [quoted, quoteChars]

theorem unquoted?_quoted (text : String) (rest : List Char) :
    unquoted? ((quoted text).toList ++ rest) = some (text, rest) := by
  simp [toList_quoted, unquoted?, readQuoted_flatMap]

theorem isControl_of_mem_quoteChar {c d : Char} (h : d ∈ quoteChar c) : isControl d = false := by
  obtain ⟨hself, -, -, hc⟩ | ⟨letter, hshort, -, hletter, -⟩ | ⟨high, low, hhigh, hlow, -, hlong⟩ :=
    quoteChar_cases c
  · obtain rfl := List.mem_singleton.1 (hself ▸ h)
    exact hc
  · simp only [hshort, List.mem_cons, List.not_mem_nil, or_false] at h
    obtain rfl | rfl := h
    · decide
    · exact hletter
  · simp only [hlong, List.mem_cons, List.not_mem_nil, or_false] at h
    obtain rfl | rfl | rfl | rfl := h
    · decide
    · decide
    · exact (digitChar_cases hhigh).2.1
    · exact (digitChar_cases hlow).2.1

/-- How many backslashes characters end in. -/
def backslashesAtEnd (chars : List Char) : Nat :=
  (chars.rtakeWhile (· == '\\')).length

/-- Whether characters end in an odd run of backslashes, `odd` being the answer for what is in front of them. -/
def escaping (odd : Bool) (chars : List Char) : Bool :=
  chars.foldl (fun odd c => c == '\\' && !odd) odd

theorem escaping_append (odd : Bool) (before after : List Char) :
    escaping odd (before ++ after) = escaping (escaping odd before) after :=
  List.foldl_append

theorem escaping_iff (chars : List Char) : escaping false chars = true ↔ Odd (backslashesAtEnd chars) := by
  induction chars using List.reverseRecOn with
  | nil => decide
  | append_singleton chars c ih =>
    rw [escaping_append, backslashesAtEnd, List.rtakeWhile_concat]
    by_cases hc : c = '\\'
    · rw [if_pos (by simp [hc]), List.length_append, List.length_singleton, Nat.odd_add_one, ← backslashesAtEnd, ← ih]
      simp [escaping, hc]
    · rw [if_neg (by simp [hc])]
      simp [escaping, hc]

/-- Characters that leave nothing escaped, with a backslash before each quote. -/
def Shielded (chars : List Char) : Prop :=
  escaping false chars = false ∧ ∀ before after, chars = before ++ '"' :: after → escaping false before = true

theorem Shielded.append {chars others : List Char} (h : Shielded chars) (hothers : Shielded others) :
    Shielded (chars ++ others) := by
  refine ⟨by rw [escaping_append, h.1, hothers.1], fun before after heq => ?_⟩
  obtain ⟨between, rfl, hrest⟩ | ⟨between, rfl, hrest⟩ := List.append_eq_append_iff.1 heq
  · rw [escaping_append, h.1]
    exact hothers.2 between after hrest
  · cases between with
    | nil => exact absurd (hothers.2 [] after hrest.symm) (by decide)
    | cons c between =>
      obtain ⟨rfl, -⟩ := List.cons.inj hrest
      exact h.2 before between rfl

theorem shielded_singleton {c : Char} (hquote : c ≠ '"') (hbackslash : c ≠ '\\') : Shielded [c] := by
  refine ⟨by simp [escaping, hbackslash], fun before after heq => absurd ?_ hquote⟩
  have hmem : '"' ∈ [c] := heq ▸ List.mem_append_right _ List.mem_cons_self
  exact (List.mem_singleton.1 hmem).symm

theorem shielded_escape (letter : Char) : Shielded ['\\', letter] := by
  refine ⟨by simp [escaping], fun before after heq => ?_⟩
  obtain _ | ⟨c, _ | ⟨d, before⟩⟩ := before
  · cases heq
  · obtain ⟨rfl, -⟩ := List.cons.inj heq
    rfl
  · simp at heq

theorem shielded_quoteChar (c : Char) : Shielded (quoteChar c) := by
  obtain ⟨hself, hquote, hbackslash, -⟩ | ⟨letter, hshort, -⟩ | ⟨high, low, hhigh, hlow, -, hlong⟩ := quoteChar_cases c
  · rw [hself]
    exact shielded_singleton hquote hbackslash
  · rw [hshort]
    exact shielded_escape letter
  · obtain ⟨-, -, hhigh⟩ := digitChar_cases hhigh
    obtain ⟨-, -, hlow⟩ := digitChar_cases hlow
    rw [hlong]
    exact ((shielded_escape 'x').append (shielded_singleton hhigh.1 hhigh.2)).append (shielded_singleton hlow.1 hlow.2)

theorem shielded_flatMap (text : List Char) : Shielded (text.flatMap quoteChar) := by
  induction text with
  | nil => exact ⟨rfl, by simp⟩
  | cons c text ih => exact (shielded_quoteChar c).append ih

/-- A quote in quoted text other than the opening one is the closing one if the run of backslashes before it is even,
and inside the text otherwise. -/
theorem even_backslashes_iff {text : String} {before after : List Char} (hbefore : before ≠ [])
    (h : (quoted text).toList = before ++ '"' :: after) : Even (backslashesAtEnd before) ↔ after = [] := by
  obtain ⟨hleft, hquotes⟩ := shielded_flatMap text.toList
  obtain ⟨c, front, rfl⟩ := List.exists_cons_of_ne_nil hbefore
  rw [toList_quoted] at h
  obtain ⟨rfl, hrest⟩ := List.cons.inj h
  change _ = front ++ '"' :: after at hrest
  have heven : Even (backslashesAtEnd ('"' :: front)) ↔ escaping false front = false := by
    rw [← Nat.not_odd_iff_even, ← escaping_iff, Bool.not_eq_true]
    rfl
  rw [heven]
  cases after using List.reverseRecOn with
  | nil =>
    obtain ⟨rfl, -⟩ := List.append_inj' hrest rfl
    simpa using hleft
  | append_singleton after c =>
    rw [← List.cons_append, ← List.append_assoc] at hrest
    obtain ⟨hbody, -⟩ := List.append_inj' hrest rfl
    simp [hquotes front after hbody]

/-- Quoting loses nothing: quoted text is read back with whatever follows it left over, so that no two texts have the
same quoted form in front. No control character stands in it, and its closing quote is the only quote behind the
opening one with an even run of backslashes before it. -/
theorem quoted_restores (text : String) :
    (∀ rest, unquoted? ((quoted text).toList ++ rest) = some (text, rest)) ∧
      (∀ text' rest rest', quoted text ++ rest = quoted text' ++ rest' → text = text' ∧ rest = rest') ∧
      Function.Injective quoted ∧
      (∀ c ∈ (quoted text).toList, isControl c = false) ∧
      (∃ body, (quoted text).toList = '"' :: (body ++ ['"'])) ∧
      ∀ before after, (quoted text).toList = before ++ '"' :: after → before ≠ [] →
        (Even (backslashesAtEnd before) ↔ after = []) := by
  have hboth : ∀ text text' rest rest' : String, quoted text ++ rest = quoted text' ++ rest' →
      text = text' ∧ rest = rest' := by
    intro text text' rest rest' heq
    have hread := unquoted?_quoted text rest.toList
    rw [← String.toList_append, heq, String.toList_append, unquoted?_quoted] at hread
    simpa [eq_comm, String.toList_inj] using hread
  refine ⟨unquoted?_quoted text, hboth text, fun a b hab => ?_, fun c hc => ?_, ⟨_, toList_quoted text⟩,
    fun before after h hbefore => even_backslashes_iff hbefore h⟩
  · exact (hboth a b "" "" (by rw [hab])).1
  · rw [toList_quoted] at hc
    simp only [List.mem_cons, List.mem_append, List.mem_flatMap, List.not_mem_nil, or_false] at hc
    obtain rfl | ⟨d, -, hd⟩ | rfl := hc
    · decide
    · exact isControl_of_mem_quoteChar hd
    · decide

/-- A text that looks escaped already: three backslashes show that the quote in it is not the closing one. -/
theorem quoted_restores_escaped :
    quoted "\\\"\x85" = "\"\\\\\\\"\\x85\"" ∧
      unquoted? ("\"\\\\\\\"\\x85\"".toList ++ ['"']) = some ("\\\"\x85", ['"']) ∧
      ¬ Even (backslashesAtEnd ['"', '\\', '\\', '\\']) := by
  have hquoted : quoted "\\\"\x85" = "\"\\\\\\\"\\x85\"" := by decide
  obtain ⟨hread, -, -, -, -, hruns⟩ := quoted_restores "\\\"\x85"
  refine ⟨hquoted, hquoted ▸ hread ['"'], ?_⟩
  rw [hruns _ ['\\', 'x', '8', '5', '"'] (by rw [hquoted]; rfl) (by simp)]
  simp

end PullScript.Text
