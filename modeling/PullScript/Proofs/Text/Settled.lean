import PullScript.Text.TextUnit

namespace PullScript

variable {bytes : Bytes} {size skip : Nat} {trail : Grapheme.Trail} {unit : TextUnit}

namespace Utf8

theorem front_append (h : front bytes ≠ .short) (more : Bytes) : front (bytes ++ more) = front bytes := by
  revert h
  fun_cases front bytes <;> simp_all [front]
  all_goals
    intro hlow
    exact absurd hlow (UInt8.not_lt.2 (by assumption))

theorem front_cons_append {b : UInt8} {rest : Bytes} {front' : Front} (h : front (b :: rest) = front')
    (hfront : front' ≠ .short) (more : Bytes) : front (b :: (rest ++ more)) = front' := by
  subst h
  exact front_append hfront more

theorem front_ne_short (h : 4 ≤ bytes.length) : front bytes ≠ .short := by
  match bytes, h with
  | b :: b₁ :: b₂ :: b₃ :: rest, _ =>
    intro hshort
    unfold front at hshort
    repeat' split at hshort
    all_goals simp_all

theorem head?_lossyFrom_append (h : 4 ≤ bytes.length) (more : Bytes) :
    (lossyFrom 0 (bytes ++ more)).head? = (lossyFrom 0 bytes).head? := by
  have hshort := front_ne_short h
  cases bytes with
  | nil => simp at h
  | cons b rest =>
    rw [List.cons_append, lossyFrom, lossyFrom, front_cons_append rfl hshort more]
    cases hfront : front (b :: rest) with
    | char c => rfl
    | broken size => rfl
    | short => exact absurd hfront hshort

theorem toNat_ofNat_le (n : Nat) : (Char.ofNat n).toNat ≤ n := by
  unfold Char.ofNat
  by_cases hvalid : n.isValidChar
  · rw [dif_pos hvalid]
    exact Nat.le_refl n
  · rw [dif_neg hvalid]
    exact Nat.zero_le n

theorem utf8Size_ofNat_le {n : Nat} (hsize : 1 ≤ size)
    (h : n < 0x80 ∨ (2 ≤ size ∧ n < 0x800) ∨ (3 ≤ size ∧ n < 0x10000) ∨ 4 ≤ size) : (Char.ofNat n).utf8Size ≤ size := by
  have hle : (Char.ofNat n).val.toNat ≤ n := toNat_ofNat_le n
  simp only [Char.utf8Size, UInt32.le_iff_toNat_le, UInt32.toNat_ofNatLT]
  split
  · omega
  split
  · omega
  split <;> omega

theorem utf8Size_le {c : Char} (h : front bytes = .char c) : c.utf8Size ≤ bytes.length := by
  revert h
  fun_cases front bytes <;> intro h <;> cases h <;> refine utf8Size_ofNat_le (by simp) ?_
  case case2 => exact .inl (UInt8.lt_iff_toNat_lt.1 ‹_›)
  all_goals
    simp only [payload, List.length_cons]
    omega

end Utf8

namespace TextUnit

theorem size_clusterFrom_le (h : (clusterFrom trail size skip bytes).settled = true) (hskip : skip ≤ size) :
    (clusterFrom trail size skip bytes).size ≤ size - skip + bytes.length := by
  fun_induction clusterFrom trail size skip bytes with
  | case1 => simp at h
  | case2 trail size skip b rest ih =>
    have := ih h (by omega)
    simp only [List.length_cons]
    omega
  | case3 trail size b rest c hfront haccepts ih =>
    have hpos := c.utf8Size_pos
    have := ih h (by omega)
    simp only [List.length_cons]
    omega
  | case4 | case5 =>
    simp only [List.length_cons]
    omega
  | case6 => simp at h

theorem size_front_le (h : (unit.front bytes).settled = true) : (unit.front bytes).size ≤ bytes.length := by
  revert h
  fun_cases front unit bytes <;> intro h
  case case4 hfront => exact Utf8.utf8Size_le hfront
  case case5 c _ =>
    have hpos := c.utf8Size_pos
    have := size_clusterFrom_le h (by omega)
    simp only [List.length_cons]
    omega
  all_goals simp

theorem clusterFrom_append (h : (clusterFrom trail size skip bytes).settled = true) (more : Bytes) :
    clusterFrom trail size skip (bytes ++ more) = clusterFrom trail size skip bytes := by
  fun_induction clusterFrom trail size skip bytes with
  | case1 => simp at h
  | case2 trail size skip b rest ih => exact ih h
  | case3 trail size b rest c hfront haccepts ih =>
    rw [List.cons_append, clusterFrom, Utf8.front_cons_append hfront (by simp) more]
    simp only [if_pos haccepts]
    exact ih h
  | case4 trail size b rest c hfront hrefuses =>
    rw [List.cons_append, clusterFrom, Utf8.front_cons_append hfront (by simp) more]
    simp only [if_neg hrefuses]
  | case5 trail size b rest n hfront =>
    rw [List.cons_append, clusterFrom, Utf8.front_cons_append hfront (by simp) more]
  | case6 => simp at h

theorem front_append (h : (unit.front bytes).settled = true) (more : Bytes) :
    unit.front (bytes ++ more) = unit.front bytes := by
  cases bytes with
  | nil => simp [front] at h
  | cons b rest =>
    have hshort : Utf8.front (b :: rest) ≠ .short := by
      intro hshort
      simp [front, hshort] at h
    rw [List.cons_append, front, Utf8.front_cons_append rfl hshort more, front]
    rw [front] at h
    cases hfront : Utf8.front (b :: rest) with
    | short => exact absurd hfront hshort
    | broken n => rfl
    | char c =>
      cases unit with
      | codePoint => rfl
      | grapheme =>
        simp only [hfront] at h
        exact clusterFrom_append h more

end TextUnit

end PullScript
