import PullScript.Proofs.Copies.Contents
import PullScript.Proofs.Rewinding.Roaming

namespace PullScript

open Act

/-- The questions that a number of items are stepped over with until the end. -/
def Asked.stepping (count : Nat) : List Asked :=
  (List.replicate count [.ended false, .advance]).flatten ++ [.ended true]

def Value.Breaks (list : Value) (w : World) (items : List Value) (error : Error) : Prop :=
  ∃ t n t', Walked (list, w) (Asked.rounds items) t ∧ (puller n).next t = .error (.failed error) t'

section

variable {feed : Feed} {list : Value} {k : Nat} {s s' : Value × World}

theorem Value.On.next_fails_iff (hlist : list.Unpulled) (hon : list.On feed k s) {error : Error} :
    (∃ n t, (puller n).next s = .error (.failed error) t) ↔ ((ListView.of list).next k).Fails feed error := by
  obtain ⟨v, w⟩ := s
  obtain ⟨seen, hstocked, hat⟩ := hon
  have hquiet (n : Nat) : Quiet (puller n).next := (steady_puller n).next.quiet_run
  constructor
  · rintro ⟨n, t, hrun⟩
    have hroomy := hquiet n v w {}
    rw [hrun] at hroomy
    exact (((pulls feed n).list hlist).next hat).fails hstocked hroomy
  · rintro ⟨n, hn⟩
    obtain ⟨t, hcomes⟩ := (((pulls feed n).list hlist).next hat).failing hstocked hn
    obtain ⟨least, hleast⟩ := hcomes.enough
    have hrun : (puller least).next (v, { w with out := {} }) = _ := hleast least (Nat.le_refl _)
    have hroomy := hquiet least v { w with out := {} } w.out
    rw [hrun] at hroomy
    exact ⟨least, _, hroomy⟩

theorem Asked.stepsOf_rounds (items : List Value) : stepsOf (rounds items) = items.length := by
  induction items with
  | nil => rfl
  | cons item items ih =>
    rw [List.length_cons, ← ih, Nat.add_comm]
    simp [rounds, stepsOf, steps]

theorem Value.On.breaks_iff (hlist : list.Unpulled) (hon : list.On feed 0 s) {items : List Value} {error : Error} :
    s.1.Breaks s.2 items error ↔ Asked.SeenFrom feed list 0 (Asked.rounds items) ∧
      ((ListView.of list).next items.length).Fails feed error := by
  have hafter {t : Value × World} (hwalked : Walked s (Asked.rounds items) t) : list.On feed items.length t := by
    have hon' := hwalked.on hlist hon
    rwa [Asked.stepsOf_rounds, Nat.zero_add] at hon'
  rw [← hon.walked_iff hlist]
  constructor
  · rintro ⟨t, n, t', hwalked, hrun⟩
    exact ⟨⟨t, hwalked⟩, ((hafter hwalked).next_fails_iff hlist).1 ⟨n, t', hrun⟩⟩
  · rintro ⟨⟨t, hwalked⟩, hfails⟩
    obtain ⟨n, t', hrun⟩ := ((hafter hwalked).next_fails_iff hlist).2 hfails
    exact ⟨t, n, t', hwalked, hrun⟩

theorem Asked.seenFrom_stepping_iff {c : Nat} : SeenFrom feed list k (stepping c) ↔
    (∀ j < c, ((ListView.of list).ended (k + j)).Gives feed false ∧ ((ListView.of list).step (k + j)).Gives feed ()) ∧
      ((ListView.of list).ended (k + c)).Gives feed true := by
  induction c generalizing k with
  | zero => simp [stepping, SeenFrom, Seen]
  | succ c ih =>
    have hround : SeenFrom feed list k (stepping (c + 1)) ↔
        (((ListView.of list).ended k).Gives feed false ∧ ((ListView.of list).step k).Gives feed ()) ∧
          SeenFrom feed list (k + 1) (stepping c) := and_assoc.symm
    rw [hround, ih, ← and_assoc, show k + 1 + c = k + (c + 1) by omega]
    refine and_congr_left fun _ => ⟨fun h j hj => ?_, fun h => ⟨h 0 (by omega), fun j hj => ?_⟩⟩
    · cases j with
      | zero => exact h.1
      | succ j =>
        rw [show k + (j + 1) = k + 1 + j by omega]
        exact h.2 j (by omega)
    · rw [show k + 1 + j = k + (j + 1) by omega]
      exact h (j + 1) (by omega)

theorem Value.On.stepping_iff (hlist : list.Unpulled) (hon : list.On feed 0 s) {c : Nat} :
    (∃ t, Walked s (Asked.stepping c) t) ↔ (ListView.of list).Counts feed c := by
  rw [hon.walked_iff hlist, Asked.seenFrom_stepping_iff]
  simp only [Nat.zero_add]
  exact ⟨fun h => ⟨h.1, h.2⟩, fun h => ⟨h.more, h.ends⟩⟩

theorem ListView.Counts.unique {l : ListView} {c c' : Nat} (h : l.Counts feed c) (h' : l.Counts feed c') : c = c' := by
  obtain hlt | heq | hgt := Nat.lt_trichotomy c c'
  · cases View.Gives.unique h.ends (h'.more c hlt).1
  · exact heq
  · cases View.Gives.unique h'.ends (h.more c' hgt).1

end

theorem Roamed.called {list : Value} {s s' : Value × World} (h : Roamed s s') (hcalled : list.Called true s.1) :
    list.Called true s'.1 := by
  induction h with
  | refl s => exact hcalled
  | asked hgets _ ih =>
    cases hgets with
    | ended hrun => exact ih (.answered .listEnded hcalled hrun)
    | current hrun => exact ih (.answered .current hcalled hrun)
    | advance hrun => exact ih (.answered .advance hcalled hrun)
  | next hrun _ ih => exact ih (.answered .next hcalled hrun)
  | rewound hrun _ ih => exact ih (.answered .rewind hcalled hrun)

/-- Wherever answered calls have led it, a list that goes back is drained as a copy of it is, to the same items and to
the same failure; and if it is counted, it is counted as many items as a copy of it is stepped over until it ends. -/
theorem Value.Built.rewind_and_count {registry : Registry} (hregistry : Registry.standard = .ok registry) {list : Value}
    (hbuilt : list.Built registry false) {w : World} {left left' : Value × World} (hleft : Roamed (list, w) left) {n : Nat} :
    ((puller n).rewind left = .ok () left' → ∀ items,
      (left'.1.Drains left'.2 items ↔ left.1.copy.Drains left'.2 items) ∧
      ∀ error, left'.1.Breaks left'.2 items error ↔ left.1.copy.Breaks left'.2 items error) ∧
    ∀ c, (puller n).count left = .ok c left' → ∀ steps,
      (∃ t, Walked (left.1.copy, left'.2) (Asked.stepping steps) t) ↔ steps = c := by
  have hlist := hbuilt.unpulled
  have hsealed := hbuilt.sealed hregistry
  obtain ⟨k, hon⟩ := hleft.on hlist (hlist.on w)
  have hcalled : list.Called true list := .none
  have hkept := (hleft.called hcalled).clean hsealed w (.inl rfl)
  have hcopy {s : Value × World} {seen : Reach} (hs : ({ s.2 with out := {} } : World).Stocked w.feed seen) :
      list.On w.feed 0 (left.1.copy, s.2) := ⟨seen, hs, hkept.at_copy⟩
  refine ⟨fun hrun items => ?_, fun c hrun steps => ?_⟩
  · have hback := hon.rewound hlist hrun
    have hcopied : list.On w.feed 0 (left.1.copy, left'.2) := hcopy hback.choose_spec.1
    exact ⟨(hback.walked_iff hlist).trans (hcopied.walked_iff hlist).symm,
      fun error => (hback.breaks_iff hlist).trans (hcopied.breaks_iff hlist).symm⟩
  · obtain ⟨seen, hstocked, hcounts, -⟩ := hon.lands_of_ok ((steady_puller n).list .count).quiet_run
      (fun hat => tallies w.feed n hlist hat) hrun
    rw [(hcopy hstocked).stepping_iff hlist]
    refine ⟨fun hsteps => hsteps.unique hcounts, ?_⟩
    rintro rfl
    exact hcounts

theorem Value.Built.rewind_and_count_tail :
    ∃ registry, Registry.standard = .ok registry ∧ (tailOfTexts 0 false).Built registry false ∧
      Roamed (tailOfTexts 0 false, {}) (tailOfTexts 2 true, {}) ∧
      (puller 9).rewind (tailOfTexts 2 true, {}) = .ok () (tailOfTexts 0 false, {}) ∧
      (∀ items, (tailOfTexts 0 false).Drains {} items ↔ (tailOfTexts 2 true).copy.Drains {} items) ∧
      (puller 9).count (tailOfTexts 2 true, {}) = .ok 2 (tailOfTexts 0 false, {}) ∧
      ∃ t, Walked ((tailOfTexts 2 true).copy, {}) (Asked.stepping 2) t := by
  obtain ⟨registry, hregistry⟩ := Registry.exists_standard
  have hbuilt := built_tailOfTexts hregistry false
  have hleft : Roamed (tailOfTexts 0 false, {}) (tailOfTexts 2 true, {}) := .asked (.advance (n := 9) (by cbv)) (.refl _)
  have hrewind : (puller 9).rewind (tailOfTexts 2 true, {}) = .ok () (tailOfTexts 0 false, {}) := by cbv
  have hcount : (puller 9).count (tailOfTexts 2 true, {}) = .ok 2 (tailOfTexts 0 false, {}) := by cbv
  obtain ⟨hback, hcounted⟩ := hbuilt.rewind_and_count hregistry hleft
  exact ⟨registry, hregistry, hbuilt, hleft, hrewind, fun items => (hback hrewind items).1, hcount,
    (hcounted 2 hcount 2).2 rfl⟩

end PullScript
