import PullScript.Proofs.Text.Settled

namespace PullScript.Utf8

variable {size : Nat} {b b₁ : UInt8} {own bytes : Bytes} {c : Char}

/-- The first two bytes of a character that has `size` bytes, by their numbers. -/
def Opens (size b b₁ : Nat) : Prop :=
  0x80 ≤ b₁ ∧ b₁ ≤ 0xbf ∧
    (size = 2 ∧ 0xc2 ≤ b ∧ b ≤ 0xdf ∨
      size = 3 ∧ 0xe0 ≤ b ∧ b ≤ 0xef ∧ (b = 0xe0 → 0xa0 ≤ b₁) ∧ (b = 0xed → b₁ ≤ 0x9f) ∨
      size = 4 ∧ 0xf0 ≤ b ∧ b ≤ 0xf4 ∧ (b = 0xf0 → 0x90 ≤ b₁) ∧ (b = 0xf4 → b₁ ≤ 0x8f))

theorem opens_iff :
    Opens size b.toNat b₁.toNat ↔ ∃ low high, lead? b = some (size, low, high) ∧ low ≤ b₁ ∧ b₁ ≤ high := by
  unfold lead? Opens
  simp only [UInt8.le_iff_toNat_le, beq_iff_eq, Bool.and_eq_true, decide_eq_true_eq, ← UInt8.toNat_inj,
    UInt8.reduceToNat]
  constructor
  · intro h
    repeat' split
    all_goals simp only [Option.some.injEq, Prod.mk.injEq, reduceCtorEq, false_and, exists_false, and_assoc,
      exists_and_left, exists_eq_left', UInt8.reduceToNat]
    all_goals omega
  · rintro ⟨low, high, hlead, hlow, hhigh⟩
    repeat' split at hlead
    all_goals simp at hlead
    all_goals obtain ⟨rfl, rfl, rfl⟩ := hlead
    all_goals simp at hlow hhigh
    all_goals omega

theorem opens_of_lead? {low high : UInt8} (hlead : lead? b = some (size, low, high))
    (hrange : ¬ (!(decide (low ≤ b₁) && decide (b₁ ≤ high))) = true) : Opens size b.toNat b₁.toNat := by
  simp only [Bool.not_eq_true', Bool.not_eq_false, Bool.and_eq_true, decide_eq_true_eq] at hrange
  exact opens_iff.2 ⟨low, high, hlead, hrange.1, hrange.2⟩

theorem not_lt_of_lead? {found : Nat × UInt8 × UInt8} (h : lead? b = some found) : ¬ b < 0x80 := by
  unfold lead? at h
  simp only [UInt8.lt_iff_toNat_lt, UInt8.le_iff_toNat_le, beq_iff_eq, Bool.and_eq_true, decide_eq_true_eq,
    ← UInt8.toNat_inj, UInt8.reduceToNat] at h ⊢
  intro hlow
  repeat' split at h
  all_goals first | omega | simp at h

theorem isContinuation_iff : isContinuation b = true ↔ 0x80 ≤ b.toNat ∧ b.toNat ≤ 0xbf := by
  simp [isContinuation, UInt8.le_iff_toNat_le]

def codeOf : Bytes → Nat
  | [b] => b.toNat
  | [b, b₁] => b.toNat % 32 * 64 + payload b₁
  | [b, b₁, b₂] => (b.toNat % 16 * 64 + payload b₁) * 64 + payload b₂
  | [b, b₁, b₂, b₃] => ((b.toNat % 8 * 64 + payload b₁) * 64 + payload b₂) * 64 + payload b₃
  | _ => 0

inductive WellFormed : Bytes → Prop
  | one {b : UInt8} : b < 0x80 → WellFormed [b]
  | two {b b₁ : UInt8} : Opens 2 b.toNat b₁.toNat → WellFormed [b, b₁]
  | three {b b₁ b₂ : UInt8} : Opens 3 b.toNat b₁.toNat → isContinuation b₂ = true → WellFormed [b, b₁, b₂]
  | four {b b₁ b₂ b₃ : UInt8} : Opens 4 b.toNat b₁.toNat → isContinuation b₂ = true → isContinuation b₃ = true →
    WellFormed [b, b₁, b₂, b₃]

theorem front_of_wellFormed (h : WellFormed own) (rest : Bytes) :
    front (own ++ rest) = .char (Char.ofNat (codeOf own)) := by
  cases h with
  | one hlow => simp [front, hlow, codeOf]
  | two hopens =>
    obtain ⟨low, high, hlead, hlow, hhigh⟩ := opens_iff.1 hopens
    simp [front, not_lt_of_lead? hlead, hlead, hlow, hhigh, codeOf]
  | three hopens h₂ =>
    obtain ⟨low, high, hlead, hlow, hhigh⟩ := opens_iff.1 hopens
    simp [front, not_lt_of_lead? hlead, hlead, hlow, hhigh, codeOf, h₂]
  | four hopens h₂ h₃ =>
    obtain ⟨low, high, hlead, hlow, hhigh⟩ := opens_iff.1 hopens
    simp [front, not_lt_of_lead? hlead, hlead, hlow, hhigh, codeOf, h₂, h₃]

theorem wellFormed_of_front (h : front bytes = .char c) :
    ∃ own rest, bytes = own ++ rest ∧ WellFormed own ∧ c = Char.ofNat (codeOf own) := by
  revert h
  fun_cases front bytes <;> intro h <;> cases h
  case case2 b rest hlow => exact ⟨[b], rest, rfl, .one hlow, rfl⟩
  case case6 b _ size low high b₁ rest hlead hrange hsize =>
    obtain rfl := eq_of_beq hsize
    exact ⟨[b, b₁], rest, rfl, .two (opens_of_lead? hlead hrange), rfl⟩
  case case9 b _ size low high b₁ hlead hrange _ b₂ rest h₂ hsize =>
    obtain rfl := eq_of_beq hsize
    exact ⟨[b, b₁, b₂], rest, rfl, .three (opens_of_lead? hlead hrange) (by simpa using h₂), rfl⟩
  case case12 b _ size low high b₁ hlead hrange htwo b₂ h₂ hthree b₃ rest h₃ =>
    have hopens := opens_of_lead? hlead hrange
    obtain rfl : size = 4 := by
      unfold Opens at hopens
      simp at htwo hthree
      omega
    exact ⟨[b, b₁, b₂, b₃], rest, rfl, .four hopens (by simpa using h₂) (by simpa using h₃), rfl⟩

theorem wellFormed_encode (c : Char) :
    WellFormed (String.utf8EncodeChar c) ∧ codeOf (String.utf8EncodeChar c) = c.toNat := by
  have hvalid : c.val.toNat < 0xd800 ∨ 0xdfff < c.val.toNat ∧ c.val.toNat < 0x110000 := c.valid
  have hnat : c.toNat = c.val.toNat := rfl
  unfold String.utf8EncodeChar
  simp only [hnat]
  generalize c.val.toNat = v at hvalid
  split
  case isTrue h => exact ⟨.one (by simp [UInt8.lt_iff_toNat_lt]; omega), by simp [codeOf]; omega⟩
  split
  case isTrue h =>
    exact ⟨.two (by simp [Opens]; omega), by simp [codeOf, payload]; omega⟩
  split
  case isTrue h =>
    exact ⟨.three (by simp [Opens]; omega) (by simp [isContinuation_iff]; omega), by simp [codeOf, payload]; omega⟩
  case isFalse h =>
    exact ⟨.four (by simp [Opens]; omega) (by simp [isContinuation_iff]; omega) (by simp [isContinuation_iff]; omega),
      by simp [codeOf, payload]; omega⟩

theorem codeOf_valid (h : WellFormed own) : codeOf own < 0xd800 ∨ 0xdfff < codeOf own ∧ codeOf own < 0x110000 := by
  cases h with
  | one hlow =>
    simp only [UInt8.lt_iff_toNat_lt, UInt8.reduceToNat] at hlow
    simp only [codeOf]
    omega
  | two hopens =>
    unfold Opens at hopens
    simp only [codeOf, payload]
    omega
  | three hopens h₂ =>
    rw [isContinuation_iff] at h₂
    unfold Opens at hopens
    simp only [codeOf, payload]
    omega
  | four hopens h₂ h₃ =>
    rw [isContinuation_iff] at h₂ h₃
    unfold Opens at hopens
    simp only [codeOf, payload]
    omega

theorem ofNat_eq {n : Nat} (h : n % 256 = b.toNat) : UInt8.ofNat n = b := by
  rw [← UInt8.toNat_inj, UInt8.toNat_ofNat', ← h]

theorem encode_of_wellFormed (h : WellFormed own) : String.utf8EncodeChar (Char.ofNat (codeOf own)) = own := by
  have hvalid := codeOf_valid h
  have hcode : (Char.ofNat (codeOf own)).val.toNat = codeOf own := by
    rw [Char.ofNat, dif_pos hvalid]
    rfl
  unfold String.utf8EncodeChar
  simp only [hcode]
  clear hvalid hcode
  cases h with
  | @one b hlow =>
    simp only [UInt8.lt_iff_toNat_lt, UInt8.reduceToNat] at hlow
    have hv : codeOf [b] = b.toNat := rfl
    generalize codeOf [b] = v at hv
    rw [if_pos (by omega), ofNat_eq (b := b) (by omega)]
  | @two b b₁ hopens =>
    unfold Opens at hopens
    have hv : codeOf [b, b₁] = b.toNat % 32 * 64 + b₁.toNat % 64 := rfl
    generalize codeOf [b, b₁] = v at hv
    rw [if_neg (by omega), if_pos (by omega), ofNat_eq (b := b) (by omega), ofNat_eq (b := b₁) (by omega)]
  | @three b b₁ b₂ hopens h₂ =>
    rw [isContinuation_iff] at h₂
    unfold Opens at hopens
    have hv : codeOf [b, b₁, b₂] = (b.toNat % 16 * 64 + b₁.toNat % 64) * 64 + b₂.toNat % 64 := rfl
    generalize codeOf [b, b₁, b₂] = v at hv
    rw [if_neg (by omega), if_neg (by omega), if_pos (by omega), ofNat_eq (b := b) (by omega),
      ofNat_eq (b := b₁) (by omega), ofNat_eq (b := b₂) (by omega)]
  | @four b b₁ b₂ b₃ hopens h₂ h₃ =>
    rw [isContinuation_iff] at h₂ h₃
    unfold Opens at hopens
    have hv : codeOf [b, b₁, b₂, b₃] =
        ((b.toNat % 8 * 64 + b₁.toNat % 64) * 64 + b₂.toNat % 64) * 64 + b₃.toNat % 64 := rfl
    generalize codeOf [b, b₁, b₂, b₃] = v at hv
    rw [if_neg (by omega), if_neg (by omega), if_neg (by omega), ofNat_eq (b := b) (by omega),
      ofNat_eq (b := b₁) (by omega), ofNat_eq (b := b₂) (by omega), ofNat_eq (b := b₃) (by omega)]

theorem front_eq_char_iff : front bytes = .char c ↔ String.utf8EncodeChar c <+: bytes := by
  constructor
  · intro h
    obtain ⟨own, rest, rfl, hwell, rfl⟩ := wellFormed_of_front h
    rw [encode_of_wellFormed hwell]
    exact List.prefix_append own rest
  · rintro ⟨rest, rfl⟩
    obtain ⟨hwell, hcode⟩ := wellFormed_encode c
    rw [front_of_wellFormed hwell, hcode, Char.ofNat_toNat]

end PullScript.Utf8
