import PullScript.Proofs.Lists.Items

namespace PullScript

namespace ListView

variable {feed : Feed} {l : ListView} {items items' : List Value}

theorem HasItem.mapped {change : Nat → Value → View Value} {k : Nat} {item item' : Value} (h : l.HasItem feed k item)
    (hchange : (change k item).Gives feed item') : (l.mapped change).HasItem feed k item' :=
  ⟨h.ended, h.item.bind hchange, h.step⟩

theorem Holds.mapped {change : Nat → Value → View Value} (h : l.Holds feed items) (hlength : items'.length = items.length)
    (hchange : ∀ k item item', items[k]? = some item → items'[k]? = some item' → (change k item).Gives feed item') :
    (l.mapped change).Holds feed items' := by
  refine ⟨fun k item' hitem' => ?_, ?_⟩
  · obtain ⟨hk, -⟩ := List.getElem?_eq_some_iff.1 hitem'
    have hitem : items[k]? = some items[k] := List.getElem?_eq_getElem (by omega)
    exact (h.shows k _ hitem).mapped (hchange k _ item' hitem hitem')
  · rw [hlength]
    exact h.ends

theorem holds_recastTo {list : Value} {wanted element : Ty} {endless tuple : Bool}
    (htarget : wanted.instantiated list.ty = .lst [element] endless tuple)
    (hitems : ∀ item ∈ items, (View.coerced item element).Gives feed item) (h : (ListView.of list).Holds feed items) :
    (ListView.of (list.recastTo wanted)).Holds feed items := by
  unfold Value.recastTo
  simp only [htarget]
  split
  · exact h
  · refine (alike_ofValue rfl).symm.holds (h.mapped rfl fun k item item' hitem hitem' => ?_)
    cases hitem.symm.trans hitem'
    have honly : (Ty.lst [element] endless tuple).elements[k % (Ty.lst [element] endless tuple).elements.length]? =
        some element := by
      simp [Ty.elements, Nat.mod_one]
    simp only [honly]
    exact hitems item (List.mem_of_getElem? hitem)

end ListView

end PullScript
