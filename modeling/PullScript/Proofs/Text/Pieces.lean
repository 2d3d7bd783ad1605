import PullScript.Proofs.Text.Search

namespace PullScript.Bytes

variable {separator text : Bytes} {pieces : List Bytes}

/-- What `pieces` a text is cut into at the leftmost occurrences of a separator, one behind the other. -/
inductive Cuts (separator : Bytes) : Bytes → List Bytes → Prop where
  | last {text : Bytes} : ¬ separator <:+: text → Cuts separator text [text]
  | piece {front rest : Bytes} {pieces : List Bytes} :
    (∀ j < front.length, ¬ separator <+: (front ++ separator ++ rest).drop j) → Cuts separator rest pieces →
      Cuts separator (front ++ separator ++ rest) (front :: pieces)

theorem find?_eq_none_iff : find? separator text = none ↔ ¬ separator <:+: text := by
  rw [← occursIn_iff_infix, occursIn]
  cases find? separator text <;> simp

theorem leftmost_of_find? {k : Nat} (h : find? separator text = some k) :
    separator <+: text.drop k ∧ ∀ j < k, ¬ separator <+: text.drop j := by
  induction text generalizing k with
  | nil =>
    rw [find?] at h
    split at h
    case isTrue hempty =>
      cases h
      rw [List.isEmpty_iff.1 hempty]
      exact ⟨List.nil_prefix, fun j hj => absurd hj (Nat.not_lt_zero j)⟩
    case isFalse => cases h
  | cons b rest ih =>
    rw [find?] at h
    split at h
    case isTrue hprefix =>
      cases h
      exact ⟨List.isPrefixOf_iff_prefix.1 hprefix, fun j hj => absurd hj (Nat.not_lt_zero j)⟩
    case isFalse hprefix =>
      obtain ⟨k, hk, rfl⟩ := Option.map_eq_some_iff.1 h
      obtain ⟨hfound, hleftmost⟩ := ih hk
      refine ⟨hfound, fun j hj => ?_⟩
      cases j with
      | zero => exact fun hfront => hprefix (List.isPrefixOf_iff_prefix.2 hfront)
      | succ j => exact hleftmost j (Nat.lt_of_succ_lt_succ hj)

/-- A text with an occurrence of the separator is what stands before the leftmost one, the separator and the
rest. -/
theorem eq_of_find? {k : Nat} (h : find? separator text = some k) :
    text = text.take k ++ separator ++ text.drop (k + separator.length) := by
  obtain ⟨rest, hrest⟩ := (leftmost_of_find? h).1
  calc text = text.take k ++ text.drop k := (List.take_append_drop k text).symm
    _ = text.take k ++ separator ++ rest := by rw [← hrest, List.append_assoc]
    _ = text.take k ++ separator ++ text.drop (k + separator.length) := by
      rw [← List.drop_drop, ← hrest, List.drop_left]

theorem find?_of_leftmost {front rest : Bytes}
    (h : ∀ j < front.length, ¬ separator <+: (front ++ separator ++ rest).drop j) :
    find? separator (front ++ separator ++ rest) = some front.length := by
  have hoccurs : separator <+: (front ++ separator ++ rest).drop front.length := by
    rw [List.append_assoc, List.drop_left]
    exact List.prefix_append separator rest
  cases hfind : find? separator (front ++ separator ++ rest) with
  | none => exact absurd ⟨front, rest, rfl⟩ (find?_eq_none_iff.1 hfind)
  | some k =>
    obtain ⟨hfound, hleftmost⟩ := leftmost_of_find? hfind
    have hge : ¬ k < front.length := fun hlt => h k hlt hfound
    have hle : ¬ front.length < k := fun hlt => hleftmost front.length hlt hoccurs
    rw [show k = front.length by omega]

namespace Cuts

theorem of_find? {k : Nat} (h : find? separator text = some k)
    (hrest : Cuts separator (text.drop (k + separator.length)) pieces) :
    Cuts separator text (text.take k :: pieces) := by
  have hlength := find?_add_length_le h
  have hleftmost := (leftmost_of_find? h).2
  have hcut := eq_of_find? h
  rw [hcut] at hleftmost
  have hpiece : Cuts separator (text.take k ++ separator ++ text.drop (k + separator.length))
      (text.take k :: pieces) :=
    .piece (fun j hj => hleftmost j (by rw [List.length_take] at hj; omega)) hrest
  rwa [← hcut] at hpiece

theorem exists_pieces (hseparator : separator ≠ []) (text : Bytes) : ∃ pieces, Cuts separator text pieces := by
  induction hlength : text.length using Nat.strongRecOn generalizing text with
  | _ length ih =>
    cases hfind : find? separator text with
    | none => exact ⟨[text], .last (find?_eq_none_iff.1 hfind)⟩
    | some k =>
      have hpos := List.length_pos_iff.2 hseparator
      have hle := find?_add_length_le hfind
      obtain ⟨pieces, hpieces⟩ := ih (text.drop (k + separator.length)).length
        (by rw [List.length_drop]; omega) _ rfl
      exact ⟨_, of_find? hfind hpieces⟩

section

variable (h : Cuts separator text pieces)
include h

theorem cons_of_find? {k : Nat} (hfind : find? separator text = some k) :
    ∃ rest, pieces = text.take k :: rest ∧ Cuts separator (text.drop (k + separator.length)) rest := by
  cases h with
  | last hnot =>
    rw [find?_eq_none_iff.2 hnot] at hfind
    cases hfind
  | @piece front rest pieces hleftmost hrest =>
    rw [find?_of_leftmost hleftmost] at hfind
    cases hfind
    refine ⟨pieces, ?_, ?_⟩
    · rw [List.append_assoc, List.take_left]
    · rw [← List.length_append, List.drop_left]
      exact hrest

theorem eq_of_not_find? (hfind : find? separator text = none) : pieces = [text] := by
  cases h with
  | last => rfl
  | piece hleftmost =>
    rw [find?_of_leftmost hleftmost] at hfind
    cases hfind

theorem unique {other : List Bytes} (hother : Cuts separator text other) :
    other = pieces := by
  induction h generalizing other with
  | last hnot => exact hother.eq_of_not_find? (find?_eq_none_iff.2 hnot)
  | @piece front rest pieces hleftmost _ ih =>
    obtain ⟨others, rfl, hothers⟩ := hother.cons_of_find? (find?_of_leftmost hleftmost)
    rw [← List.length_append, List.drop_left] at hothers
    rw [ih hothers, List.append_assoc, List.take_left]

theorem ne_nil : pieces ≠ [] := by
  cases h <;> exact List.cons_ne_nil _ _

theorem not_infix (hseparator : separator ≠ []) :
    ∀ piece ∈ pieces, ¬ separator <:+: piece := by
  induction h with
  | last hnot =>
    intro piece hpiece
    rw [List.mem_singleton.1 hpiece]
    exact hnot
  | @piece front rest pieces hleftmost _ ih =>
    intro piece hpiece
    obtain rfl | hpiece := List.mem_cons.1 hpiece
    · rintro ⟨before, after, rfl⟩
      have hpos := List.length_pos_iff.2 hseparator
      refine hleftmost before.length (by simp only [List.length_append]; omega) ?_
      refine ⟨after ++ separator ++ rest, ?_⟩
      simp only [List.append_assoc, List.drop_left]
    · exact ih piece hpiece

theorem intercalate_eq : separator.intercalate pieces = text := by
  induction h with
  | last => exact List.intercalate_singleton
  | @piece front rest pieces _ hrest ih =>
    obtain ⟨first, others, rfl⟩ := List.exists_cons_of_ne_nil hrest.ne_nil
    rw [List.intercalate_cons_cons, ih]

end

end Cuts

end PullScript.Bytes
