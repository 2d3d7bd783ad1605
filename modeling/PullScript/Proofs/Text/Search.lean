import PullScript.Bytes

namespace PullScript.Bytes

variable {needle text : Bytes}

theorem find?_add_length_le {k : Nat} (h : find? needle text = some k) : k + needle.length ≤ text.length := by
  induction text generalizing k with
  | nil =>
    rw [find?] at h
    split at h
    case isTrue hempty =>
      cases h
      simpa using hempty
    case isFalse => cases h
  | cons b rest ih =>
    rw [find?] at h
    split at h
    case isTrue hprefix =>
      cases h
      have := (List.isPrefixOf_iff_prefix.1 hprefix).length_le
      omega
    case isFalse =>
      obtain ⟨j, hj, rfl⟩ := Option.map_eq_some_iff.1 h
      have := ih hj
      rw [List.length_cons]
      omega

theorem find?_append {k : Nat} (h : find? needle text = some k) (more : Bytes) :
    find? needle (text ++ more) = some k := by
  induction text generalizing k with
  | nil =>
    rw [find?] at h
    split at h
    case isTrue hempty =>
      cases h
      rw [List.isEmpty_iff] at hempty
      subst hempty
      cases more <;> rfl
    case isFalse => cases h
  | cons b rest ih =>
    rw [find?] at h
    rw [List.cons_append, find?]
    split at h
    case isTrue hprefix =>
      have hmore : needle <+: b :: (rest ++ more) :=
        (List.isPrefixOf_iff_prefix.1 hprefix).trans (List.prefix_append (b :: rest) more)
      rw [if_pos (List.isPrefixOf_iff_prefix.2 hmore)]
      exact h
    case isFalse hprefix =>
      obtain ⟨j, hj, rfl⟩ := Option.map_eq_some_iff.1 h
      have hlength := find?_add_length_le hj
      have hmore : ¬ needle.isPrefixOf (b :: (rest ++ more)) := by
        intro hmore
        refine hprefix (List.isPrefixOf_iff_prefix.2 ?_)
        refine List.prefix_of_prefix_length_le (List.isPrefixOf_iff_prefix.1 hmore)
          (List.prefix_append (b :: rest) more) ?_
        rw [List.length_cons]
        omega
      rw [if_neg hmore, ih hj]
      rfl

theorem occursIn_append (h : occursIn needle text = true) (more : Bytes) : occursIn needle (text ++ more) = true := by
  obtain ⟨k, hk⟩ := Option.isSome_iff_exists.1 h
  rw [occursIn, find?_append hk more]
  rfl

theorem occursIn_iff_infix : occursIn needle text = true ↔ needle <:+: text := by
  unfold occursIn
  induction text with
  | nil =>
    rw [find?, List.infix_nil]
    split <;> simp_all
  | cons b rest ih =>
    rw [find?, List.infix_cons_iff, ← ih, ← List.isPrefixOf_iff_prefix]
    split <;> simp_all

theorem occursIn_lastBytes_append (h : occursIn needle text = false) (more : Bytes) :
    occursIn needle (lastBytes (needle.length - 1) text ++ more) = occursIn needle (text ++ more) := by
  have hnot : ¬ needle <:+: text := by
    rw [← occursIn_iff_infix, h]
    exact Bool.false_ne_true
  rw [Bool.eq_iff_iff, occursIn_iff_infix, occursIn_iff_infix, lastBytes,
    ← List.drop_append_of_le_length (by omega)]
  constructor
  · exact fun hlast => hlast.trans (List.drop_suffix _ _).isInfix
  · rintro ⟨front, back, hoccurs⟩
    have hbegins : text.length - (needle.length - 1) ≤ front.length := by
      refine Nat.le_of_not_lt fun hlt => hnot ?_
      have hprefix : front ++ needle <+: text :=
        List.prefix_of_prefix_length_le ⟨back, hoccurs⟩ (List.prefix_append text more)
          (by rw [List.length_append]; omega)
      exact (List.suffix_append front needle).isInfix.trans hprefix.isInfix
    rw [← hoccurs, List.append_assoc, List.drop_append_of_le_length hbegins]
    exact ⟨_, back, by rw [List.append_assoc]⟩

theorem lastBytes_lastBytes_append (n : Nat) (text more : Bytes) :
    lastBytes n (lastBytes n text ++ more) = lastBytes n (text ++ more) := by
  unfold lastBytes
  rw [← List.drop_append_of_le_length (by omega), List.drop_drop]
  congr 1
  simp only [List.length_append, List.length_drop]
  omega

theorem isPrefixOf_append (h : needle.length ≤ text.length) (more : Bytes) :
    needle.isPrefixOf (text ++ more) = needle.isPrefixOf text := by
  rw [Bool.eq_iff_iff, List.isPrefixOf_iff_prefix, List.isPrefixOf_iff_prefix]
  exact ⟨fun hfront => List.prefix_of_prefix_length_le hfront (List.prefix_append text more) h,
    fun hfront => hfront.trans (List.prefix_append text more)⟩

end PullScript.Bytes
