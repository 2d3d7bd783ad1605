import PullScript.Proofs.Copies.Upholding
import PullScript.Proofs.Rewinding.Roaming

namespace PullScript

open Act

variable {σ α : Type} {act : Act σ α} {s : σ} {Q : α → σ → Prop} {E : σ → Prop}

/-- Calls to a list, each of them made in some world, have led it to its item number `k`: as many as have been stepped
over since it went back or was copied. Calls that fail lead nowhere, and so does counting, where it leaves a list that
it would have to lead back. -/
inductive Value.StandsAt (list : Value) : Nat → Value → Prop
  | start : StandsAt list 0 list
  | looked {n k : Nat} {v v' : Value} {w w' : World} {ask : ListAsk} {reply : ask.Reply} : StandsAt list k v →
    ask = .ended ∨ ask = .current → pull n (.list ask) (v, w) = .ok reply (v', w') → StandsAt list k v'
  | advanced {n k : Nat} {v v' : Value} {w w' : World} : StandsAt list k v →
    (puller n).advance (v, w) = .ok () (v', w') → StandsAt list (k + 1) v'
  | rewound {n k : Nat} {v v' : Value} {w w' : World} : StandsAt list k v →
    (puller n).rewind (v, w) = .ok () (v', w') → StandsAt list 0 v'
  | counted {n k c : Nat} {v v' : Value} {w w' : World} : StandsAt list k v →
    (puller n).count (v, w) = .ok c (v', w') → k = 0 ∨ v'.Counting .stays → StandsAt list k v'
  | failed {n k : Nat} {v v' : Value} {w w' : World} {ask : ListAsk} {stop : Stop} : StandsAt list k v →
    pull n (.list ask) (v, w) = .error stop (v', w') → (ask = .count → v'.Counting .stays) → StandsAt list k v'
  | next {n k : Nat} {v v' : Value} {w w' : World} {item : Option Value} : StandsAt list k v →
    (puller n).next (v, w) = .ok item (v', w') → StandsAt list (if item.isSome then k + 1 else k) v'
  | nextFailed {n k : Nat} {v v' : Value} {w w' : World} {stop : Stop} : StandsAt list k v →
    (puller n).next (v, w) = .error stop (v', w') → StandsAt list k v'
  | copied {k : Nat} {v : Value} : StandsAt list k v → StandsAt list 0 v.copy

/-- A list of coerced items whose source stands at the item number that it takes itself to be at. -/
def Recast.Stands (ty : Ty) (source : Value) (k : Nat) (v : Value) : Prop :=
  ∃ source', v = .recast ty source' k ∧ source.StandsAt k source'

def Recast.itemAs (p : Puller) (target : Ty) : Act (Value × Nat) Value := do
  coerce p (← onFirst p.current) target

theorem Ends.of_run (hok : ∀ {a w s'}, act (s, w) = .ok a s' → Q a s'.1)
    (herror : ∀ {stop w s'}, act (s, w) = .error stop s' → E s'.1) : Leaves s act Q E := by
  intro _ w _
  cases hrun : act (s, w) with
  | ok a s' => exact ⟨hok hrun, trivial⟩
  | error stop s' => exact fun _ => ⟨herror hrun, trivial⟩

theorem Ends.of_ok {w : World} {a : α} {s' : σ × World} (h : Leaves s act Q E) (hrun : act (s, w) = .ok a s') :
    Q a s'.1 := by
  have hmeets := h () w trivial
  rw [hrun] at hmeets
  exact hmeets.1

theorem Ends.of_error {w : World} {stop : Stop} {s' : σ × World} (h : Leaves s act Q E)
    (hrun : act (s, w) = .error stop s') : E s'.1 := by
  have hmeets := h () w trivial
  rw [hrun] at hmeets
  exact (hmeets trivial).1

theorem Recast.counting_source {ty : Ty} {source : Value} {k : Nat} (h : (Value.recast ty source k).Counting .stays) :
    source.Counting .stays := by
  cases h with
  | recast hsource _ => exact hsource

namespace Recast

variable {ty : Ty} {source source' v : Value} {k : Nat}

theorem pull_leaves {ask : ListAsk} {Q : ask.Reply → Value → Prop} {E : Value → Prop} (hE : E (.recast ty source' k))
    (h : ∀ n, Leaves (source', k) (answerRecast (puller n) ty ask) (fun a s => Q a (.recast ty s.1 s.2))
      fun s => E (.recast ty s.1 s.2)) (n : Nat) :
    Leaves (.recast ty source' k) (pull n (.list ask)) Q E := by
  cases n with
  | zero => exact .outOfFuel fun _ => hE
  | succ n =>
    have hwithin : Leaves (Value.recast ty source' k)
        (within (source', k) (fun s => .recast ty s.1 s.2) (answerRecast (puller n) ty ask)) Q E := .within (h n)
    exact hwithin

theorem current_run (hsome : 0 < ty.elements.length) (p : Puller) (w : World) :
    answerRecast p ty .current ((source', k), w) =
      itemAs p (ty.elements.get ⟨k % ty.elements.length, Nat.mod_lt k hsome⟩) ((source', k), w) := by
  have htarget : ty.elements[k % ty.elements.length]? =
      some (ty.elements.get ⟨k % ty.elements.length, Nat.mod_lt k hsome⟩) := List.getElem?_eq_getElem _
  have hfirst : ∀ w, onFirst p.current ((source', k), w) =
      within source' (fun s => (s, k)) p.current ((source', k), w) := fun _ => rfl
  simp only [answerRecast, itemAs, bind_run, hfirst, within_run]
  cases p.current (source', { w with around := held ((default : Value), k) :: w.around }) with
  | error stop s => rfl
  | ok item s => simp only [Result.on, look_run, htarget]

variable (h : Stands ty source k v) (n : Nat)
include h

theorem ended_leaves : Leaves v (puller n).listEnded (fun _ => Stands ty source k) (Stands ty source k) := by
  obtain ⟨source', rfl, hsource⟩ := h
  refine pull_leaves ⟨source', rfl, hsource⟩ (fun n => .onFirst (.of_run ?_ ?_)) n
  · exact fun hrun => ⟨_, rfl, hsource.looked (.inl rfl) hrun⟩
  · exact fun hrun => ⟨_, rfl, hsource.failed hrun (by rintro ⟨⟩)⟩

theorem current_leaves : Leaves v (puller n).current (fun _ => Stands ty source k) (Stands ty source k) := by
  obtain ⟨source', rfl, hsource⟩ := h
  refine pull_leaves ⟨source', rfl, hsource⟩ (fun n => ?_) n
  have hsource' : Leaves (source', k) (onFirst (puller n).current)
      (fun _ s => Stands ty source k (.recast ty s.1 s.2)) fun s => Stands ty source k (.recast ty s.1 s.2) := by
    refine .onFirst (.of_run ?_ ?_)
    · exact fun hrun => ⟨_, rfl, hsource.looked (.inr rfl) hrun⟩
    · exact fun hrun => ⟨_, rfl, hsource.failed hrun (by rintro ⟨⟩)⟩
  refine hsource'.bind fun item s hs => .look ?_
  split
  case h_1 target _ =>
    refine (coerce_still (puller n) item target s).imp ?_ ?_
    · rintro _ _ rfl
      exact hs
    · rintro _ rfl
      exact hs
  case h_2 => exact .pure hs

theorem advance_leaves : Leaves v (puller n).advance (fun _ => Stands ty source (k + 1)) (Stands ty source k) := by
  obtain ⟨source', rfl, hsource⟩ := h
  refine pull_leaves ⟨source', rfl, hsource⟩ (fun n => ?_) n
  refine Ends.bind (Q := fun _ s => source.StandsAt (k + 1) s.1 ∧ s.2 = k) (.onFirst (.of_run ?_ ?_)) ?_
  · exact fun hrun => ⟨hsource.advanced hrun, rfl⟩
  · exact fun hrun => ⟨_, rfl, hsource.failed hrun (by rintro ⟨⟩)⟩
  · rintro _ ⟨s, _⟩ ⟨hs, rfl⟩
    exact .change ⟨_, rfl, hs⟩

theorem rewind_leaves : Leaves v (puller n).rewind (fun _ => Stands ty source 0) (Stands ty source k) := by
  obtain ⟨source', rfl, hsource⟩ := h
  refine pull_leaves ⟨source', rfl, hsource⟩ (fun n => ?_) n
  refine Ends.bind (Q := fun _ s => source.StandsAt 0 s.1 ∧ s.2 = k) (.onFirst (.of_run ?_ ?_)) ?_
  · exact fun hrun => ⟨hsource.rewound hrun, rfl⟩
  · exact fun hrun => ⟨_, rfl, hsource.failed hrun (by rintro ⟨⟩)⟩
  · rintro _ ⟨s, _⟩ ⟨hs, rfl⟩
    exact .change ⟨_, rfl, hs⟩

theorem next_leaves : Leaves v (puller n).next (fun item => Stands ty source (if item.isSome then k + 1 else k))
    (Stands ty source k) := by
  refine (ended_leaves h n).bind fun ended v' hv' => ?_
  cases ended with
  | true => exact .pure hv'
  | false =>
    refine (current_leaves hv' n).bind fun item v'' hv'' => ?_
    exact ((advance_leaves hv'' n).holding [item]).bind fun _ _ hv => .pure hv

theorem count_leaves : Leaves v (puller n).count
    (fun _ v' => k = 0 ∨ v'.Counting .stays → Stands ty source k v')
    fun v' => v'.Counting .stays → Stands ty source k v' := by
  obtain ⟨source', rfl, hsource⟩ := h
  refine pull_leaves (fun _ => ⟨source', rfl, hsource⟩) (fun n => .onFirst (.of_run ?_ ?_)) n
  · exact fun hrun hstays => ⟨_, rfl, hsource.counted hrun (hstays.imp_right counting_source)⟩
  · exact fun hrun hstays => ⟨_, rfl, hsource.failed hrun fun _ => counting_source hstays⟩

omit h in
theorem stands_of_standsAt (h : (Value.recast ty source 0).StandsAt k v) : Stands ty source k v := by
  induction h with
  | start => exact ⟨source, rfl, .start⟩
  | looked _ hask hrun ih =>
    obtain rfl | rfl := hask
    · exact (ended_leaves ih _).of_ok hrun
    · exact (current_leaves ih _).of_ok hrun
  | advanced _ hrun ih => exact (advance_leaves ih _).of_ok hrun
  | rewound _ hrun ih => exact (rewind_leaves ih _).of_ok hrun
  | counted _ hrun hstays ih => exact (count_leaves ih _).of_ok hrun hstays
  | @failed _ _ _ _ _ _ ask _ _ hrun hstays ih =>
    cases ask with
    | ended => exact (ended_leaves ih _).of_error hrun
    | current => exact (current_leaves ih _).of_error hrun
    | advance => exact (advance_leaves ih _).of_error hrun
    | rewind => exact (rewind_leaves ih _).of_error hrun
    | count => exact (count_leaves ih _).of_error hrun (hstays rfl)
  | next _ hrun ih => exact (next_leaves ih _).of_ok hrun
  | nextFailed _ hrun ih => exact (next_leaves ih _).of_error hrun
  | copied _ ih =>
    obtain ⟨source', rfl, hsource⟩ := ih
    exact ⟨source'.copy, rfl, hsource.copied⟩

end Recast

/-- Whatever calls have led a list of coerced items to its item number `k`, its source stands at its own item number `k`,
and asking for the item in front gives that of the source, coerced to the type that is number `k` in turn. -/
theorem Value.StandsAt.recast_in_step {ty : Ty} {source v : Value} {k : Nat}
    (h : (Value.recast ty source 0).StandsAt k v) :
    ∃ source', v = .recast ty source' k ∧ source.StandsAt k source' ∧
      ∀ (hsome : 0 < ty.elements.length) (n : Nat) (w : World), (puller (n + 1)).current (v, w) =
        within (source', k) (fun s => .recast ty s.1 s.2)
          (Recast.itemAs (puller n) (ty.elements.get ⟨k % ty.elements.length, Nat.mod_lt k hsome⟩)) (v, w) := by
  obtain ⟨source', rfl, hsource⟩ := Recast.stands_of_standsAt h
  refine ⟨source', rfl, hsource, fun hsome n w => ?_⟩
  have hstep : (puller (n + 1)).current (.recast ty source' k, w) =
      within (source', k) (fun s => .recast ty s.1 s.2) (answerRecast (puller n) ty .current) (.recast ty source' k, w) :=
    rfl
  rw [hstep, within_run, within_run, Recast.current_run hsome]

def Value.textsInTurn (position : Nat) (started : Bool) (place : Nat) : Value :=
  .recast (.listOf [.str false, .listOf [.str false] false] false) (tailOfTexts position started) place

theorem Value.StandsAt.recast_in_step_tail :
    (textsInTurn 0 false 0).StandsAt 1 (textsInTurn 2 true 1) ∧ (tailOfTexts 0 false).StandsAt 1 (tailOfTexts 2 true) ∧
      (puller 9).current (textsInTurn 2 true 1, {}) = .ok (clustersOf (.textOf [99])) (textsInTurn 2 true 1, {}) := by
  have hnext : (puller 9).next (textsInTurn 0 false 0, {}) = .ok (some (.textOf [98])) (textsInTurn 2 true 1, {}) := by
    cbv
  have hstands : (textsInTurn 0 false 0).StandsAt 1 (textsInTurn 2 true 1) := .next .start hnext
  obtain ⟨source, heq, hsource, hcurrent⟩ := hstands.recast_in_step
  cases heq
  refine ⟨hstands, hsource, (hcurrent (by decide) 8 {}).trans (by cbv)⟩

/-- Counting leads the texts back to the first one, which is coerced as if it were the second one. -/
theorem Value.textsInTurn_out_of_step :
    (tailOfTexts 0 false).recastTo (.listOf [.str false, .listOf [.str false] false] false) = textsInTurn 0 false 0 ∧
      (puller 9).next (textsInTurn 0 false 0, {}) = .ok (some (.textOf [98])) (textsInTurn 2 true 1, {}) ∧
      (puller 9).count (textsInTurn 2 true 1, {}) = .ok 2 (textsInTurn 0 false 1, {}) ∧
      (puller 9).current (tailOfTexts 0 false, {}) = .ok (.textOf [98]) (tailOfTexts 1 true, {}) ∧
      (puller 9).current (textsInTurn 0 false 1, {}) = .ok (clustersOf (.textOf [98])) (textsInTurn 1 true 1, {}) :=
  ⟨by cbv, by cbv, by cbv, by cbv, by cbv⟩

end PullScript
