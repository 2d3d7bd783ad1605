import PullScript.Proofs.View.Arguments

namespace PullScript

open Act

variable {σ τ α β : Type} {feed : Feed} {n : Nat} {seen : Reach}
variable {t : τ} {rebuild : σ → τ} {b : Bound} {k fuel : Nat}

/-- An answer and a state in `Q`; or, where `F` holds, no answer and a state in `E`. The world goes no further back.
Of work that ran out of fuel nothing is said. -/
def Landed (feed : Feed) (seen : Reach) (F : Prop) (Q : Reach → α → σ → Prop)
    (E : Reach → σ → Prop) : Act.Result σ α → Prop
  | .ok a (s, w) => ∃ seen', Further seen seen' ∧ w.Stocked feed seen' ∧ Q seen' a s
  | .error (.failed _) (s, w) => F → ∃ seen', Further seen seen' ∧ w.Stocked feed seen' ∧ E seen' s
  | .error .outOfFuel _ => True

/-- From `s`, work answers and leaves a state in `Q`; or it fails and, where `F` holds, leaves a state in `E`. -/
def Lands (feed : Feed) (seen : Reach) (F : Prop) (s : σ) (act : Act σ α)
    (Q : Reach → α → σ → Prop) (E : Reach → σ → Prop) : Prop :=
  ∀ ⦃w : World⦄, w.Stocked feed seen → Landed feed seen F Q E (act (s, w))

namespace Lands

variable {F F' : Prop} {s : σ} {act : Act σ α} {Q Q' : Reach → α → σ → Prop} {E E' : Reach → σ → Prop}

theorem pure {a : α} (h : Q seen a s) : Lands feed seen F s (Pure.pure a) Q E :=
  fun _ hw => ⟨seen, .refl seen, hw, h⟩

theorem fail (error : Error) (h : F → E seen s) : Lands feed seen F s (Act.fail error : Act σ α) Q E :=
  fun _ hw hF => ⟨seen, .refl seen, hw, h hF⟩

theorem change {f : σ → σ} {Q : Reach → Unit → σ → Prop} (h : Q seen () (f s)) :
    Lands feed seen F s (Act.change f) Q E :=
  fun _ hw => ⟨seen, .refl seen, hw, h⟩

theorem put {part : σ} {Q : Reach → Unit → σ → Prop} (h : Q seen () part) :
    Lands feed seen F s (Act.put part) Q E :=
  fun _ hw => ⟨seen, .refl seen, hw, h⟩

theorem congr (act : Act σ α) {act' : Act σ α} (h : Lands feed seen F s act Q E) (heq : ∀ w, act' (s, w) = act (s, w)) :
    Lands feed seen F s act' Q E := by
  intro w hw
  rw [heq]
  exact h hw

theorem look {next : σ → Act σ α} (h : Lands feed seen F s (next s) Q E) :
    Lands feed seen F s (Act.look >>= next) Q E :=
  h

section

variable (h : Lands feed seen F s act Q E)
include h

theorem bind {next : α → Act σ β} {R : Reach → β → σ → Prop}
    (hnext : ∀ seen' a s', Further seen seen' → Q seen' a s' → Lands feed seen' F s' (next a) R E) :
    Lands feed seen F s (act >>= next) R E := by
  intro w hw
  have hfirst := h hw
  rw [bind_run]
  rcases hact : act (s, w) with ⟨a, s', w'⟩ | ⟨_ | _, s', w'⟩ <;> rw [hact] at hfirst
  · obtain ⟨seen', hfurther, hw', hQ⟩ := hfirst
    have hrest := hnext seen' a s' hfurther hQ hw'
    dsimp only
    rcases hrun : next a (s', w') with ⟨b, s'', w''⟩ | ⟨_ | _, s'', w''⟩ <;> rw [hrun] at hrest
    · obtain ⟨seen'', hfurther', hrest⟩ := hrest
      exact ⟨seen'', hfurther.trans hfurther', hrest⟩
    · intro hF
      obtain ⟨seen'', hfurther', hrest⟩ := hrest hF
      exact ⟨seen'', hfurther.trans hfurther', hrest⟩
    · trivial
  · exact hfirst
  · trivial

theorem imp (hF : F' → F) (hQ : ∀ seen' a s', Further seen seen' → Q seen' a s' → Q' seen' a s')
    (hE : ∀ seen' s', Further seen seen' → F' → E seen' s' → E' seen' s') : Lands feed seen F' s act Q' E' := by
  intro w hw
  have hrun := h hw
  rcases hact : act (s, w) with ⟨a, s', w'⟩ | ⟨_ | _, s', w'⟩ <;> rw [hact] at hrun
  · obtain ⟨seen', hfurther, hw', hs'⟩ := hrun
    exact ⟨seen', hfurther, hw', hQ _ _ _ hfurther hs'⟩
  · intro hF'
    obtain ⟨seen', hfurther, hw', hs'⟩ := hrun (hF hF')
    exact ⟨seen', hfurther, hw', hE _ _ hfurther hF' hs'⟩
  · trivial

theorem unfailing {F' : Prop} {E' : Reach → σ → Prop}
    (hF : F' → ∀ w error s', act (s, w) ≠ .error (.failed error) s') : Lands feed seen F' s act Q E' := by
  intro w hw
  have hrun := h hw
  rcases hact : act (s, w) with ⟨a, s', w'⟩ | ⟨error | _, s', w'⟩ <;> rw [hact] at hrun
  · exact hrun
  · exact fun hfails => absurd hact (hF hfails w error (s', w'))
  · trivial

theorem ran :
    Lands feed seen F s act (fun seen' a s' => Q seen' a s' ∧ ∃ w w', act (s, w) = .ok a (s', w')) E := by
  intro w hw
  have hrun := h hw
  rcases hact : act (s, w) with ⟨a, s', w'⟩ | ⟨_ | _, s', w'⟩ <;> rw [hact] at hrun
  · obtain ⟨seen', hfurther, hw', hs'⟩ := hrun
    exact ⟨seen', hfurther, hw', hs', w, w', hact⟩
  · exact hrun
  · trivial

end

theorem on {act' : Act τ α} {around : World → List (List Value)} {Q : Reach → α → τ → Prop}
    {E : Reach → τ → Prop}
    (h : Lands feed seen F s act (fun seen' a s' => Q seen' a (rebuild s')) fun seen' s' => E seen' (rebuild s'))
    (heq : ∀ w, act' (t, w) = Result.on rebuild
      (fun w₁ => { w₁ with around := w.around }) (act (s, { w with around := around w }))) :
    Lands feed seen F t act' Q E := by
  intro w hw
  have hrun := h (hw.around (around w))
  rw [heq]
  rcases hact : act (s, { w with around := around w }) with ⟨a, s', w'⟩ | ⟨_ | _, s', w'⟩ <;> rw [hact] at hrun
  · obtain ⟨seen', hfurther, hw', hs'⟩ := hrun
    exact ⟨seen', hfurther, hw'.around _, hs'⟩
  · intro hF
    obtain ⟨seen', hfurther, hw', hs'⟩ := hrun hF
    exact ⟨seen', hfurther, hw'.around _, hs'⟩
  · trivial

theorem within [Holder τ] [Inhabited σ] {Q : Reach → α → τ → Prop} {E : Reach → τ → Prop}
    (h : Lands feed seen F s act (fun seen' a s' => Q seen' a (rebuild s')) fun seen' s' => E seen' (rebuild s')) :
    Lands feed seen F t (Act.within s rebuild act) Q E :=
  h.on fun _ => within_run ..

theorem onFirst [Holder σ] [Holder τ] [Inhabited σ] {Q : Reach → α → σ × τ → Prop}
    {E : Reach → σ × τ → Prop}
    (h : Lands feed seen F s act (fun seen' a s' => Q seen' a (s', t)) fun seen' s' => E seen' (s', t)) :
    Lands feed seen F (s, t) (Act.onFirst act) Q E :=
  look (within h)

theorem ofTracks {act : Nat → Act σ α} {m : View β} {N : Reach → β → α → σ → Bytes → Prop}
    (h : Tracks feed n seen s act m N) (hF : F → ∀ w error s', act n (s, w) ≠ .error (.failed error) s') :
    Lands feed seen F s (act n) (fun seen' a s' => ∃ b bytes, m.Gives feed b ∧ N seen' b a s' bytes) E := by
  intro w hw
  rcases hact : act n (s, w) with ⟨a, s', w'⟩ | ⟨error | _, s', w'⟩
  · obtain ⟨seen', b, bytes, hb, hmoves, hN⟩ := h.sound hw hact
    exact ⟨seen', hmoves.further, hmoves.stocked, b, bytes, hb, hN⟩
  · exact fun hfails => absurd hact (hF hfails w error (s', w'))
  · trivial

theorem ofTells {act : Nat → Act σ α} {m : View α} {P : Reach → α → σ → Prop} (h : Tells feed n seen s act m P) :
    Lands feed seen False s (act n) (fun seen' a s' => m.Gives feed a ∧ P seen' a s') E := by
  refine (ofTracks (E := E) h False.elim).imp id ?_ fun _ _ _ => False.elim
  rintro seen' _ s' - ⟨a, _, ha, rfl, -, hs'⟩
  exact ⟨ha, hs'⟩

theorem pull {ask : Ask} {v : Value} {Q : Reach → ask.Reply → Value → Prop} {E : Reach → Value → Prop}
    (hE : F → E seen v) (h : v.kind = ask.kind → Lands feed seen F v (answerFitting (puller n) ask) Q E) :
    Lands feed seen F v (PullScript.pull (n + 1) ask) Q E := by
  by_cases hkind : v.kind = ask.kind
  · refine congr _ (h hkind) fun w => ?_
    simp [PullScript.pull, answer, requireFor, bind_run, hkind, puller]
  · refine congr _ (fail (.typeMismatch v.ty ask.wantedTy) hE) fun w => ?_
    simp [PullScript.pull, answer, requireFor, bind_run, hkind]

end Lands

theorem Bound.on_run {a : Value} (hk : b.args[k]? = some a) (act : Act Value α) (w : World) :
    Bound.on k act (b, w) = within a (fun v => { b with args := b.args.set k v }) act (b, w) := by
  simp only [Bound.on, Bound.arg, bind_run, look_run, hk, pure_run]

theorem Bound.on_lands {F : Prop} {act : Act Value α} {Q : Reach → α → Bound → Prop}
    {E : Reach → Bound → Prop} (hE : F → b.args[k]? = none → E seen b)
    (h : ∀ a, b.args[k]? = some a → Lands feed seen F a act
      (fun seen' x v => Q seen' x { b with args := b.args.set k v })
      fun seen' v => E seen' { b with args := b.args.set k v }) :
    Lands feed seen F b (Bound.on k act) Q E := by
  cases hk : b.args[k]? with
  | none =>
    refine Lands.congr _ (.fail (.runtime (.missingArgument b.name (k + 1))) fun hF => hE hF hk) fun w => ?_
    simp only [Bound.on, Bound.arg, bind_run, look_run, hk, fail_run]
  | some a =>
    exact Lands.congr _ (.within (h a hk)) fun w => Bound.on_run hk act w

structure ListView.Counts (feed : Feed) (l : ListView) (c : Nat) : Prop where
  more : ∀ k < c, (l.ended k).Gives feed false ∧ (l.step k).Gives feed ()
  ends : (l.ended c).Gives feed true

section Counting

variable {l : ListView} {P : Reach → Nat → σ → Prop} {O : Reach → σ → Prop} {ended : Nat → Act σ Bool}
  {current : Nat → Act σ Value} {advance : Nat → Act σ Unit} {E : Reach → σ → Prop} {s : σ}

/-- How a round of stepping over items at a place ends: there is an item that has been stepped over, or the list ends. -/
def ListView.Round (feed : Feed) (l : ListView) (P : Reach → Nat → σ → Prop) (k : Nat)
    (seen : Reach) : Nat ⊕ Nat → σ → Prop
  | .inl c, s => c = k + 1 ∧ ((l.ended k).Gives feed false ∧ (l.step k).Gives feed ()) ∧ P seen (k + 1) s
  | .inr c, s => c = k ∧ (l.ended k).Gives feed true ∧ P seen k s

theorem ListView.Walks.loop_lands (h : l.Walks feed n P O ended current advance) (hs : P seen k s)
    (hpassed : ∀ i < k, (l.ended i).Gives feed false ∧ (l.step i).Gives feed ()) :
    Lands feed seen False s (loop (fun c => do
      if ← ended n then return .inr c
      advance n
      return .inl (c + 1)) fuel k) (fun seen' c s' => l.Counts feed c ∧ P seen' c s') E := by
  induction fuel generalizing seen k s with
  | zero => exact fun _ _ => trivial
  | succ fuel ih =>
    refine Lands.bind (Q := l.Round feed P k) ?_ ?_
    · refine (Lands.ofTells (h.ended hs)).bind ?_
      rintro seen' e s' - ⟨he, hs'⟩
      cases e with
      | true => exact .pure ⟨rfl, he, hs'⟩
      | false =>
        refine (Lands.ofTells (h.advance hs')).bind ?_
        rintro seen'' _ s'' - ⟨hstep, hs''⟩
        exact .pure ⟨rfl, ⟨he, hstep⟩, hs''⟩
    · intro seen' out s' _ hout
      cases out with
      | inl c =>
        obtain ⟨rfl, hk, hs'⟩ := hout
        refine ih hs' fun i hi => ?_
        obtain hlt | rfl := Nat.lt_succ_iff_lt_or_eq.1 hi
        · exact hpassed i hlt
        · exact hk
      | inr c =>
        obtain ⟨rfl, hends, hs'⟩ := hout
        exact .pure ⟨⟨hpassed, hends⟩, hs'⟩

theorem ListView.Walks.countBySteps_lands (h : l.Walks feed n P O ended current advance) {rewind : Act σ Unit}
    (hrewind : ∀ {seen k s}, P seen k s → Lands feed seen False s rewind (fun seen' _ s' => P seen' 0 s') E)
    (hs : P seen k s) :
    Lands feed seen False s (countBySteps fuel rewind (ended n) (advance n))
      (fun seen' c s' => l.Counts feed c ∧ P seen' 0 s') E := by
  refine (hrewind hs).bind fun seen₁ _ s₁ _ hs₁ => ?_
  refine (h.loop_lands hs₁ fun i hi => absurd hi (Nat.not_lt_zero i)).bind fun seen₂ c s₂ _ hc => ?_
  exact (hrewind hc.2).bind fun seen₃ _ s₃ _ hs₃ => .pure ⟨hc.1, hs₃⟩

end Counting

end PullScript
