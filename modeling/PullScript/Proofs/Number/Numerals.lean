import Mathlib
import PullScript.Proofs.Number.Leading

namespace PullScript.Number

open Bytes

variable {digits : Bytes} {c : Char} {x : Float}

def Digits (digits : Bytes) : Prop :=
  ∀ b ∈ digits, isDigit b = true

/-- Digits that a point and further digits may follow, or a point and digits. -/
inductive Unsigned : Bytes → Prop where
  | whole {digits : Bytes} : digits ≠ [] → Digits digits → Unsigned digits
  | pointed {digits decimals : Bytes} : digits ≠ [] ∨ decimals ≠ [] → Digits digits → Digits decimals →
    Unsigned (digits ++ 0x2e :: decimals)

inductive Sign : Bytes → Prop where
  | none : Sign []
  | minus : Sign [0x2d]
  | plus : Sign [0x2b]

/-- A decimal number as it is written: an optional sign and then digits, point and digits. -/
inductive Numeral : Bytes → Prop where
  | mk {sign m : Bytes} : Sign sign → Unsigned m → Numeral (sign ++ m)

def LongestFront (m text : Bytes) : Prop :=
  Numeral m ∧ m <+: text ∧ ∀ m', Numeral m' → m' <+: text → m'.length ≤ m.length

def withoutPoint (m : Bytes) : Bytes :=
  if m.getLast? = some 0x2e then m.dropLast else m

def pointed : Bytes → Bytes
  | 0x2e :: rest => 0x2e :: rest.takeWhile isDigit
  | _ => []

def unsignedFront (text : Bytes) : Bytes :=
  text.takeWhile isDigit ++ pointed (text.dropWhile isDigit)

section

variable {text m sign : Bytes}

theorem digits_takeWhile (text : Bytes) : Digits (text.takeWhile isDigit) :=
  fun _ => List.mem_takeWhile_imp

theorem Digits.front_takeWhile (h : Digits digits) (hm : digits <+: text) : digits <+: text.takeWhile isDigit := by
  obtain ⟨rest, rfl⟩ := hm
  rw [List.takeWhile_append_of_pos h]
  exact List.prefix_append ..

theorem Unsigned.front_of_front (h : Unsigned m) (hm : m <+: text) : m <+: unsignedFront text := by
  cases h with
  | whole _ hdigits => exact (hdigits.front_takeWhile hm).trans (List.prefix_append ..)
  | @pointed digits decimals _ hdigits hdecimals =>
    obtain ⟨rest, rfl⟩ := hm
    rw [List.append_assoc, List.cons_append, unsignedFront, List.takeWhile_append_of_pos hdigits,
      List.dropWhile_append_of_pos hdigits, List.takeWhile_cons_of_neg (by decide), List.dropWhile_cons_of_neg (by decide),
      List.append_nil, List.prefix_append_right_inj, Number.pointed, List.cons_prefix_cons]
    exact ⟨rfl, hdecimals.front_takeWhile (List.prefix_append ..)⟩

theorem Unsigned.digit (h : Unsigned m) :
    (∃ b rest, m = b :: rest ∧ (isDigit b = true ∨ b = 0x2e)) ∧ ∃ b ∈ m, isDigit b = true := by
  cases h with
  | whole hsome hdigits =>
    obtain ⟨b, rest, rfl⟩ := List.exists_cons_of_ne_nil hsome
    have hb := hdigits b List.mem_cons_self
    exact ⟨⟨b, rest, rfl, .inl hb⟩, b, List.mem_cons_self, hb⟩
  | @pointed digits decimals hsome hdigits hdecimals =>
    cases digits with
    | nil =>
      obtain ⟨b, rest, rfl⟩ := List.exists_cons_of_ne_nil (hsome.resolve_left (· rfl))
      exact ⟨⟨0x2e, _, rfl, .inr rfl⟩, b, by simp, hdecimals b List.mem_cons_self⟩
    | cons b rest =>
      have hb := hdigits b List.mem_cons_self
      exact ⟨⟨b, _, rfl, .inl hb⟩, b, List.mem_cons_self, hb⟩

theorem Unsigned.not_sign (h : Unsigned m) {sign : UInt8} {rest : Bytes} (hsign : sign = 0x2d ∨ sign = 0x2b) :
    ¬ m <+: sign :: rest := by
  intro hm
  obtain ⟨⟨b, rest', rfl, hb⟩, -⟩ := h.digit
  obtain ⟨rfl, -⟩ := List.cons_prefix_cons.1 hm
  obtain rfl | rfl := hsign <;> revert hb <;> decide

theorem Numeral.dropWhile_isBlank (h : Numeral m) : m.dropWhile isBlank = m := by
  obtain @⟨sign, m, hsign, hm⟩ := h
  cases hsign with
  | none =>
    obtain ⟨⟨b, rest, rfl, hb⟩, -⟩ := hm.digit
    refine List.dropWhile_cons_of_neg fun hblank => ?_
    simp only [isBlank, Bool.or_eq_true, beq_iff_eq] at hblank
    obtain (((rfl | rfl) | rfl) | rfl) | rfl := hblank <;> revert hb <;> decide
  | minus => rfl
  | plus => rfl

theorem pointed_eq (text : Bytes) : pointed text = [] ∧ fraction text = [] ∨ pointed text = 0x2e :: fraction text := by
  fun_cases pointed text with
  | case1 rest => exact .inr rfl
  | case2 => exact .inl ⟨rfl, by simp [fraction]⟩

theorem digits_fraction (text : Bytes) : Digits (fraction text) := by
  fun_cases fraction text with
  | case1 rest => exact digits_takeWhile rest
  | case2 => exact fun _ hb => by cases hb

theorem unsigned_front (hsome : text.takeWhile isDigit ≠ [] ∨ fraction (text.dropWhile isDigit) ≠ []) :
    Unsigned (unsignedFront text) := by
  obtain ⟨hnone, hfraction⟩ | hpoint := pointed_eq (text.dropWhile isDigit)
  · rw [unsignedFront, hnone, List.append_nil]
    exact .whole (hsome.resolve_right (· hfraction)) (digits_takeWhile text)
  · rw [unsignedFront, hpoint]
    exact .pointed hsome (digits_takeWhile text) (digits_fraction _)

theorem Unsigned.some_of_front (h : Unsigned m) (hm : m <+: text) :
    text.takeWhile isDigit ≠ [] ∨ fraction (text.dropWhile isDigit) ≠ [] := by
  obtain ⟨-, b, hb, hdigit⟩ := h.digit
  have hmem := (h.front_of_front hm).subset hb
  rw [unsignedFront, List.mem_append] at hmem
  obtain hmem | hmem := hmem
  · exact .inl (List.ne_nil_of_mem hmem)
  · obtain ⟨hnone, -⟩ | hpoint := pointed_eq (text.dropWhile isDigit)
    · rw [hnone] at hmem
      cases hmem
    · rw [hpoint] at hmem
      obtain rfl | hmem := List.mem_cons.1 hmem
      · cases hdigit
      · exact .inr (List.ne_nil_of_mem hmem)

theorem splitSign_eq (text : Bytes) : ∃ sign, Sign sign ∧ text = sign ++ (splitSign text).2 ∧
    ((splitSign text).1 = true ↔ sign = [0x2d]) ∧
    ∀ sign' m, Sign sign' → Unsigned m → sign' ++ m <+: text → sign' = sign := by
  fun_cases splitSign text with
  | case1 rest =>
    refine ⟨_, .minus, rfl, by simp, fun sign' m hsign hm hfront => ?_⟩
    cases hsign with
    | none => exact (hm.not_sign (.inl rfl) hfront).elim
    | minus => rfl
    | plus => cases (List.cons_prefix_cons.1 hfront).1
  | case2 rest =>
    refine ⟨_, .plus, rfl, by simp, fun sign' m hsign hm hfront => ?_⟩
    cases hsign with
    | none => exact (hm.not_sign (.inr rfl) hfront).elim
    | minus => cases (List.cons_prefix_cons.1 hfront).1
    | plus => rfl
  | case3 _ hminus hplus =>
    refine ⟨_, .none, rfl, by simp, fun sign' m hsign hm hfront => ?_⟩
    obtain ⟨rest, rfl⟩ := hfront
    cases hsign with
    | none => rfl
    | minus => exact (hminus _ rfl).elim
    | plus => exact (hplus _ rfl).elim

end

section

variable {sign whole decimals : List Char} (hwhole : ∀ c ∈ whole, c.isDigit = true)
  (hdecimals : ∀ c ∈ decimals, c.isDigit = true)

def unsignedChars (whole decimals : List Char) : List Char :=
  whole ++ if decimals = [] then [] else '.' :: decimals

include hwhole hdecimals

theorem mem_unsignedChars (hc : c ∈ unsignedChars whole decimals) : c.isDigit = true ∨ c = '.' := by
  rw [unsignedChars, List.mem_append] at hc
  obtain hc | hc := hc
  · exact .inl (hwhole c hc)
  · split at hc
    · cases hc
    · obtain rfl | hc := List.mem_cons.1 hc
      · exact .inr rfl
      · exact .inl (hdecimals c hc)

theorem ofText?_unsignedChars (hsign : sign = [] ∨ sign = ['-'] ∨ sign = ['+']) (hsome : whole ≠ [] ∨ decimals ≠ []) :
    ofText? (String.ofList (sign ++ unsignedChars whole decimals)) =
      some (if sign = ['-'] then -ofDigits whole decimals else ofDigits whole decimals) := by
  have hbare {c : Char} (hc : c ∈ unsignedChars whole decimals) : c ≠ '-' ∧ c ≠ '+' ∧ c ≠ 'n' ∧ c ≠ 'N' := by
    obtain hdigit | rfl := mem_unsignedChars hwhole hdecimals hc
    · refine ⟨?_, ?_, ?_, ?_⟩ <;> rintro rfl <;> cases hdigit
    · decide
  have hword {c : Char} {word : String} (heq : String.ofList (sign ++ unsignedChars whole decimals) = word)
      (hc : c ∈ word.toList) (hletter : c = 'n' ∨ c = 'N') : False := by
    rw [← heq, String.toList_ofList, List.mem_append] at hc
    obtain hc | hc := hc
    · obtain rfl | rfl | rfl := hsign <;> obtain rfl | rfl := hletter <;> simp at hc
    · obtain ⟨-, -, hn, hN⟩ := hbare hc
      exact hletter.elim hn hN
  unfold ofText?
  split
  · next heq => exact (hword heq (c := 'N') (by decide) (.inr rfl)).elim
  · next heq => exact (hword heq (c := 'n') (by decide) (.inl rfl)).elim
  · next heq => exact (hword heq (c := 'n') (by decide) (.inl rfl)).elim
  · rw [String.toList_ofList]
    have hdigits : (unsignedChars whole decimals).takeWhile Char.isDigit = whole := by
      rw [unsignedChars, List.takeWhile_append_of_pos hwhole]
      split <;> simp
    have hrest : (unsignedChars whole decimals).dropWhile Char.isDigit = if decimals = [] then [] else '.' :: decimals := by
      rw [unsignedChars, List.dropWhile_append_of_pos hwhole]
      split <;> simp
    have hall : decimals.takeWhile Char.isDigit = decimals := List.takeWhile_eq_self_iff.2 hdecimals
    have hnone : decimals.dropWhile Char.isDigit = [] := List.dropWhile_eq_nil_iff.2 hdecimals
    have hplaces : ofDigitsExponent whole decimals 0 = ofDigits whole decimals := by
      simp [ofDigitsExponent, ofDigits]
    generalize unsignedChars whole decimals = chars at *
    cases chars with
    | nil =>
      rw [List.dropWhile_nil] at hrest
      obtain rfl : whole = [] := hdigits.symm
      simp [hsome.resolve_left (· rfl)] at hrest
    | cons c rest =>
      obtain ⟨hminus, hplus, -⟩ := hbare List.mem_cons_self
      by_cases hd : decimals = []
      · subst hd
        have hwhole : whole ≠ [] := hsome.resolve_right (· rfl)
        rw [if_pos rfl] at hrest
        obtain rfl | rfl | rfl := hsign <;>
          simp [hminus, hplus, hdigits, hrest, hplaces, hwhole, -List.dropWhile_eq_nil_iff]
      · rw [if_neg hd] at hrest
        obtain rfl | rfl | rfl := hsign <;> simp [hminus, hplus, hdigits, hrest, hall, hnone, hplaces, hd]

end

theorem isDigit_digitChar {b : UInt8} (h : isDigit b = true) : (Char.ofNat b.toNat).isDigit = true := by
  have hb : 48 ≤ b.toNat ∧ b.toNat ≤ 57 := by simpa [isDigit, UInt8.le_iff_toNat_le] using h
  have hchar : (Char.ofNat b.toNat).toNat = b.toNat := by
    rw [Char.toNat_ofNat, if_pos (.inl (by omega))]
  rw [Char.isDigit_iff_toNat, hchar]
  exact hb

theorem Digits.chars (h : Digits digits) : ∀ c ∈ digitChars digits, c.isDigit = true := by
  intro c hc
  obtain ⟨b, hb, rfl⟩ := List.mem_map.1 hc
  exact isDigit_digitChar (h b hb)

section

variable {text m sign : Bytes}

theorem withoutPoint_append (h : Digits digits) (hsome : digits ≠ []) (front : Bytes) :
    withoutPoint (front ++ digits) = front ++ digits := by
  rw [withoutPoint, if_neg]
  rw [List.getLast?_append, List.getLast?_eq_some_getLast hsome, Option.some_or, Option.some.injEq]
  intro hpoint
  have hdigit := h _ (List.getLast_mem hsome)
  rw [hpoint] at hdigit
  cases hdigit

theorem withoutPoint_front (sign : Bytes)
    (hsome : text.takeWhile isDigit ≠ [] ∨ fraction (text.dropWhile isDigit) ≠ []) :
    withoutPoint (sign ++ unsignedFront text) = sign ++ (text.takeWhile isDigit ++
      if fraction (text.dropWhile isDigit) = [] then [] else 0x2e :: fraction (text.dropWhile isDigit)) := by
  rw [unsignedFront, ← List.append_assoc, ← List.append_assoc]
  obtain ⟨hnone, hfraction⟩ | hpoint := pointed_eq (text.dropWhile isDigit)
  · rw [hnone, hfraction, if_pos rfl, List.append_nil,
      withoutPoint_append (digits_takeWhile text) (hsome.resolve_right (· hfraction))]
  · rw [hpoint]
    split
    · next hfraction => rw [hfraction, withoutPoint, if_pos (by simp), List.dropLast_concat, List.append_nil]
    · next hfraction =>
      rw [List.append_cons, withoutPoint_append (digits_fraction _) hfraction]

theorem unsignedFront_front (text : Bytes) : unsignedFront text <+: text := by
  conv => rhs; rw [← List.takeWhile_append_dropWhile (p := isDigit) (l := text)]
  rw [unsignedFront, List.prefix_append_right_inj]
  fun_cases pointed (text.dropWhile isDigit) with
  | case1 rest => exact List.cons_prefix_cons.2 ⟨rfl, List.takeWhile_prefix _⟩
  | case2 => exact List.nil_prefix

theorem LongestFront.eq_front (h : LongestFront m text) : let unsigned := (splitSign text).2
    ∃ sign, Sign sign ∧ ((splitSign text).1 = true ↔ sign = [0x2d]) ∧ m = sign ++ unsignedFront unsigned ∧
      (unsigned.takeWhile isDigit ≠ [] ∨ fraction (unsigned.dropWhile isDigit) ≠ []) := by
  intro unsigned
  obtain ⟨@⟨sign, m, hsign, hm⟩, hfront, hlongest⟩ := h
  obtain ⟨sign', -, heq, hminus, hsame⟩ := splitSign_eq text
  obtain rfl := hsame _ _ hsign hm hfront
  have hunsigned (m' : Bytes) : sign ++ m' <+: text ↔ m' <+: unsigned := by
    conv => lhs; rw [heq]
    exact List.prefix_append_right_inj _
  rw [hunsigned] at hfront
  have hsome := hm.some_of_front hfront
  have hlength := hlongest _ (.mk hsign (unsigned_front hsome)) ((hunsigned _).2 (unsignedFront_front unsigned))
  rw [List.length_append, List.length_append, Nat.add_le_add_iff_left] at hlength
  exact ⟨sign, hsign, hminus, congrArg _ ((hm.front_of_front hfront).eq_of_length_le hlength), hsome⟩

theorem ofText?_longestFront (h : LongestFront m (text.dropWhile isBlank)) :
    ofText? (String.ofList (digitChars (withoutPoint m))) = some (ofLeading text) := by
  obtain ⟨sign, hsign, hminus, rfl, hsome⟩ := h.eq_front
  rw [ofLeading_eq, withoutPoint_front sign hsome]
  dsimp only
  generalize hwhole : (splitSign (text.dropWhile isBlank)).2.takeWhile isDigit = whole at *
  generalize hfraction : fraction ((splitSign (text.dropWhile isBlank)).2.dropWhile isDigit) = decimals at *
  have hwhole : Digits whole := hwhole ▸ digits_takeWhile _
  have hdecimals : Digits decimals := hfraction ▸ digits_fraction _
  have hchars : digitChars (sign ++ (whole ++ if decimals = [] then [] else 0x2e :: decimals)) =
      digitChars sign ++ unsignedChars (digitChars whole) (digitChars decimals) := by
    by_cases hnil : decimals = [] <;> simp [digitChars, unsignedChars, hnil]
  have hsign' : digitChars sign = [] ∨ digitChars sign = ['-'] ∨ digitChars sign = ['+'] := by
    cases hsign <;> decide
  have hminus' : digitChars sign = ['-'] ↔ sign = [0x2d] := by
    cases hsign <;> decide
  have hsome' : digitChars whole ≠ [] ∨ digitChars decimals ≠ [] := by simpa [digitChars] using hsome
  rw [hchars, ofText?_unsignedChars hwhole.chars hdecimals.chars hsign' hsome']
  have hnot : (whole.isEmpty && decimals.isEmpty) = false := by simpa [or_iff_not_imp_left] using hsome
  simp only [hnot, hminus', hminus, Bool.false_eq_true, if_false]

theorem ofLeading_of_none (h : ∀ m, Numeral m → ¬ m <+: text.dropWhile isBlank) : ofLeading text = 0 := by
  obtain ⟨sign, hsign, heq, -⟩ := splitSign_eq (text.dropWhile isBlank)
  have hnone : ¬ ((splitSign (text.dropWhile isBlank)).2.takeWhile isDigit ≠ [] ∨
      fraction ((splitSign (text.dropWhile isBlank)).2.dropWhile isDigit) ≠ []) := by
    intro hsome
    refine h _ (.mk hsign (unsigned_front hsome)) ?_
    conv => rhs; rw [heq]
    exact (List.prefix_append_right_inj _).2 (unsignedFront_front _)
  rw [ofLeading_eq]
  simp only [ne_eq, not_or, not_not] at hnone
  simp only [hnone, List.isEmpty_nil, Bool.and_self, if_true]
  rfl

end

open Float.Model.UnpackedFloat in
theorem shapeOf_of_isFinite (h : x.isFinite = true) : ∃ p, shapeOf x = .finite p := by
  have hfield : x.toBits.toNat / Nat.pow 2 52 % Nat.pow 2 11 ≠ 2047 := by
    intro hfield
    have hones : @unpackExponent .binary64 x.toBits.toBitVec = -1#11 := by
      apply BitVec.eq_of_toNat_eq
      simp only [unpackExponent, BitVec.toNat_cast, BitVec.extractLsb_toNat, Nat.shiftRight_eq_div_pow]
      exact hfield
    simp only [Float.isFinite, Float.Model.isFinite, Float.Model.unpack, Float.Model.UnpackedFloat.unpack] at h
    split at h
    · split at h <;> cases h
    · next hexponent => exact hexponent hones
  simp only [shapeOf, beq_iff_eq, hfield, if_false]
  split <;> exact ⟨_, rfl⟩

theorem positional_chars (d : Decimal) : ∃ whole decimals, d.positional.toList = unsignedChars whole decimals ∧
    whole ≠ [] ∧ (∀ c ∈ whole, c.isDigit = true) ∧ ∀ c ∈ decimals, c.isDigit = true := by
  have hdigit {c : Char} : c ∈ Nat.toDigits 10 d.digits → c.isDigit = true :=
    Nat.isDigit_of_mem_toDigits (by decide) (by decide)
  have hzero {c : Char} {n : Nat} (hc : c ∈ List.replicate n '0') : c.isDigit = true := by
    rw [(List.mem_replicate.1 hc).2]
    rfl
  have hsome : Nat.toDigits 10 d.digits ≠ [] := Nat.toDigits_ne_nil
  rw [Decimal.positional]
  split
  · refine ⟨_, [], by rw [String.toList_ofList, unsignedChars, if_pos rfl, List.append_nil], by simp [hsome], fun c hc => ?_,
      fun c hc => by cases hc⟩
    exact (List.mem_append.1 hc).elim hdigit hzero
  · next hneg =>
    dsimp only
    generalize hpadded : List.replicate _ '0' ++ Nat.toDigits 10 d.digits = padded
    have hall {c : Char} (hc : c ∈ padded) : c.isDigit = true :=
      (List.mem_append.1 (hpadded ▸ hc)).elim hzero hdigit
    have hlong : (-d.exponent).toNat < padded.length := by
      rw [← hpadded, List.length_append, List.length_replicate]
      omega
    let places := padded.length - (-d.exponent).toNat
    refine ⟨padded.take places, padded.drop places, ?_, ?_, fun c hc => hall (List.mem_of_mem_take hc),
      fun c hc => hall (List.mem_of_mem_drop hc)⟩
    · rw [String.toList_ofList, unsignedChars, if_neg]
      rw [List.drop_eq_nil_iff]
      omega
    · rw [ne_eq, List.take_eq_nil_iff, ← List.length_eq_zero_iff]
      omega

theorem toText_chars (h : x.isFinite = true) : ∃ sign whole decimals,
    (toText x).toList = sign ++ unsignedChars whole decimals ∧ (sign = [] ∨ sign = ['-']) ∧
    whole ≠ [] ∧ (∀ c ∈ whole, c.isDigit = true) ∧ ∀ c ∈ decimals, c.isDigit = true := by
  obtain ⟨p, hp⟩ := shapeOf_of_isFinite h
  obtain ⟨whole, decimals, hmagnitude, hform⟩ : ∃ whole decimals,
      (if p.significand == 0 then "0" else (p.shortest.trimmed 20).positional).toList = unsignedChars whole decimals ∧
      whole ≠ [] ∧ (∀ c ∈ whole, c.isDigit = true) ∧ ∀ c ∈ decimals, c.isDigit = true := by
    split
    · exact ⟨['0'], [], rfl, by simp, by simp, by simp⟩
    · exact positional_chars _
  rw [toText, hp]
  dsimp only
  split
  · exact ⟨['-'], whole, decimals, by rw [String.toList_append, hmagnitude]; rfl, .inr rfl, hform⟩
  · exact ⟨[], whole, decimals, hmagnitude, .inl rfl, hform⟩

def byteOf (c : Char) : UInt8 :=
  c.val.toUInt8

theorem toNat_byteOf (h : c.toNat < 128) : (byteOf c).toNat = c.toNat :=
  Nat.mod_eq_of_lt (Nat.lt_trans h (by decide))

section

variable {chars : List Char}

theorem flatMap_utf8EncodeChar (h : ∀ c ∈ chars, c.toNat < 128) :
    chars.flatMap String.utf8EncodeChar = chars.map byteOf := by
  rw [← List.flatMap_pure_eq_map]
  refine List.flatMap_congr fun c hc => ?_
  have hlow : c.val.toNat ≤ 0x7f := Nat.le_of_lt_succ (h c hc)
  simp only [String.utf8EncodeChar, hlow, if_true]
  rfl

theorem digitChars_map_byteOf (h : ∀ c ∈ chars, c.toNat < 128) : digitChars (chars.map byteOf) = chars := by
  rw [digitChars, List.map_map]
  conv => rhs; rw [← List.map_id chars]
  refine List.map_congr_left fun c hc => ?_
  rw [Function.comp_apply, toNat_byteOf (h c hc), Char.ofNat_toNat, id]

theorem digits_map_byteOf (h : ∀ c ∈ chars, c.isDigit = true) : Digits (chars.map byteOf) := by
  intro b hb
  obtain ⟨c, hc, rfl⟩ := List.mem_map.1 hb
  have hdigit := Char.isDigit_iff_toNat.1 (h c hc)
  have hlow := toNat_byteOf (Nat.lt_of_le_of_lt hdigit.2 (by decide))
  simp only [isDigit, Bool.and_eq_true, decide_eq_true_eq, UInt8.le_iff_toNat_le, hlow]
  exact hdigit

end

theorem numeral_map_byteOf {sign whole decimals : List Char} (hsign : Sign (sign.map byteOf)) (hsome : whole ≠ [])
    (hwhole : ∀ c ∈ whole, c.isDigit = true) (hdecimals : ∀ c ∈ decimals, c.isDigit = true) :
    let m := (sign ++ unsignedChars whole decimals).map byteOf
    Numeral m ∧ withoutPoint m = m := by
  intro m
  have hdigits := digits_map_byteOf hwhole
  have hplaces := digits_map_byteOf hdecimals
  have hsome' : whole.map byteOf ≠ [] := by simpa using hsome
  by_cases hnil : decimals = []
  · have hm : m = sign.map byteOf ++ whole.map byteOf := by simp [m, unsignedChars, hnil]
    rw [hm]
    exact ⟨.mk hsign (.whole hsome' hdigits), withoutPoint_append hdigits hsome' _⟩
  · have hm : m = sign.map byteOf ++ (whole.map byteOf ++ 0x2e :: decimals.map byteOf) := by
      simp [m, unsignedChars, hnil]
      rfl
    have hlast := withoutPoint_append hplaces (by simpa using hnil) (sign.map byteOf ++ whole.map byteOf ++ [0x2e])
    rw [hm]
    refine ⟨.mk hsign (.pointed (.inl hsome') hdigits hplaces), ?_⟩
    simpa only [List.append_assoc, List.singleton_append] using hlast

theorem ofLeading_toText (hfinite : x.isFinite = true) (hread : ofText? (toText x) = some x) :
    ofLeading (ofString (toText x)) = x := by
  obtain ⟨sign, whole, decimals, htext, hsign, hsome, hwhole, hdecimals⟩ := toText_chars hfinite
  have hlow (c : Char) (hc : c ∈ (toText x).toList) : c.toNat < 128 := by
    rw [htext, List.mem_append] at hc
    obtain hc | hc := hc
    · obtain rfl | rfl := hsign <;> simp_all
    · obtain hdigit | rfl := mem_unsignedChars hwhole hdecimals hc
      · exact Nat.lt_of_le_of_lt (Char.isDigit_iff_toNat.1 hdigit).2 (by decide)
      · decide
  have hsign' : Sign (sign.map byteOf) := by
    obtain rfl | rfl := hsign
    · exact .none
    · exact .minus
  have hbytes : ofString (toText x) = (toText x).toList.map byteOf := flatMap_utf8EncodeChar hlow
  obtain ⟨hnumeral, hpoint⟩ := numeral_map_byteOf hsign' hsome hwhole hdecimals
  rw [← htext, ← hbytes] at hnumeral hpoint
  have hlongest : LongestFront (ofString (toText x)) ((ofString (toText x)).dropWhile isBlank) := by
    rw [hnumeral.dropWhile_isBlank]
    exact ⟨hnumeral, List.prefix_refl _, fun m' _ hm' => hm'.length_le⟩
  have hfront := ofText?_longestFront hlongest
  rw [hpoint, hbytes, digitChars_map_byteOf hlow, String.ofList_toList, hread, ← hbytes] at hfront
  exact (Option.some.inj hfront).symm

end PullScript.Number
