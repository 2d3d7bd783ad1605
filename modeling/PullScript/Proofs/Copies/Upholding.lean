import PullScript.Eval.Pull
import PullScript.Proofs.Eval.Ends

namespace PullScript

open Act

variable {σ τ α β : Type}

/-- From `s`, work answers and leaves a state in `Q`, or fails and leaves a state in `E`. -/
abbrev Settles (s : σ) (act : Act σ α) (Q : α → σ → Prop) (E : σ → Prop) : Prop :=
  Ends (· ≠ .outOfFuel) World.Any s act Q E

namespace Settles

variable {s : σ} {act : Act σ α} {Q Q' : α → σ → Prop} {E E' : σ → Prop}

theorem and (h : Settles s act Q E) (h' : Settles s act Q' E') :
    Settles s act (fun a s' => Q a s' ∧ Q' a s') fun s' => E s' ∧ E' s' := by
  intro i w hw
  have hrun := h i w hw
  have hrun' := h' i w hw
  cases hact : act (s, w) with
  | ok a s' =>
    rw [hact] at hrun hrun'
    exact ⟨⟨hrun.1, hrun'.1⟩, trivial⟩
  | error stop s' =>
    rw [hact] at hrun hrun'
    exact fun hcounts => ⟨⟨(hrun hcounts).1, (hrun' hcounts).1⟩, trivial⟩

theorem outOfFuel : Settles s (Act.outOfFuel : Act σ α) Q E :=
  Ends.outOfFuel fun hcounts => absurd rfl hcounts

theorem gathered {act : Act σ Unit} {Q : Bytes → σ → Prop} (h : Settles s act (fun _ s' => ∀ bytes, Q bytes s') E) :
    Settles s (Act.gathered act) Q E := by
  intro i w _
  rw [gathered_run]
  exact (h i { w with out := {} } trivial).through _ (fun _ _ _ hs _ => ⟨hs _, trivial⟩) fun _ _ _ hs => hs

theorem gather {buffer : Bytes} {Q : α → Bytes × σ → Prop} {E : Bytes × σ → Prop}
    (h : Settles s act (fun a s' => ∀ bytes, Q a (bytes, s')) fun s' => ∀ bytes, E (bytes, s')) :
    Settles (buffer, s) (Act.gather act) Q E := by
  intro i w _
  rw [gather_run]
  exact (h i { w with out := {} } trivial).through _ (fun _ _ _ hs _ => ⟨hs _, trivial⟩) fun _ _ _ hs hcounts =>
    ⟨(hs hcounts).1 _, trivial⟩

end Settles

theorem coerce_still [Holder σ] (p : Puller) (value : Value) (target : Ty) :
    Still (coerce p value target : Act σ Value) := by
  unfold coerce
  split
  case h_6 =>
    refine .bind (.aside _ _) fun x => ?_
    obtain ⟨_ | number, text⟩ := x
    · exact .fail _
    · exact .pure _
  all_goals first | exact .pure _ | exact .fail _

theorem Choice.chooseFrom_still [Holder σ] (p : Puller) (choice : Choice) (b : Bound) :
    Still (choice.chooseFrom p b : Act σ Value) :=
  .bind (.aside _ _) fun _ => .pure _

theorem applyCurried_still [Holder σ] (p : Puller) (builtin : Builtin) (ty : Ty) (args : List Value) (x : Value) :
    Still (applyCurried p builtin ty args x : Act σ Value) := by
  unfold applyCurried
  split
  case h_2 => exact .fail _
  case h_1 =>
    refine .bind (coerce_still p x _) fun x => ?_
    dsimp only
    split
    · exact .pure _
    · unfold finish
      split
      · exact .bind (.aside _ _) fun _ => .pure _
      · exact .pure _

class Weakens (I : Bool → σ → Prop) : Prop where
  weaken {clean : Bool} {s : σ} : I clean s → I false s

def First (I : Bool → σ → Prop) (clean : Bool) (s : σ × τ) : Prop :=
  I clean s.1

def Second (I : Bool → τ → Prop) (clean : Bool) (s : σ × τ) : Prop :=
  I clean s.2

instance {I : Bool → σ → Prop} [Weakens I] : Weakens (First I : Bool → σ × τ → Prop) :=
  ⟨fun h => Weakens.weaken (I := I) h⟩

instance {I : Bool → τ → Prop} [Weakens I] : Weakens (Second I : Bool → σ × τ → Prop) :=
  ⟨fun h => Weakens.weaken (I := I) h⟩

/-- From `s`, work leaves a state in `I`; where it fails this need not be clean. -/
abbrev Retains (I : Bool → σ → Prop) (clean : Bool) (s : σ) (act : Act σ α) : Prop :=
  Settles s act (fun _ s' => I clean s') (I false)

/-- From states in `I`, work leaves states in `I`; where it fails they need not be clean. -/
def Upholds (I : Bool → σ → Prop) (act : Act σ α) : Prop :=
  ∀ ⦃clean : Bool⦄ ⦃s : σ⦄, I clean s → Retains I clean s act

namespace Upholds

variable {I : Bool → σ → Prop} {act : Act σ α}

theorem pure {a : α} : Upholds I (Pure.pure a : Act σ α) :=
  fun _ _ hI => Ends.pure hI

theorem still [Weakens I] (h : Still act) : Upholds I act := by
  intro clean s hI i w hw
  refine (h s i w hw).through id ?_ ?_
  · rintro _ _ _ rfl _
    exact ⟨hI, trivial⟩
  · intro stop s' _ hs _
    obtain ⟨rfl, -⟩ := hs trivial
    exact ⟨Weakens.weaken hI, trivial⟩

theorem fail [Weakens I] {error : Error} : Upholds I (Act.fail error : Act σ α) :=
  still (.fail error)

theorem write [Weakens I] {bytes : Bytes} : Upholds I (Act.write bytes : Act σ Unit) :=
  still (.write bytes)

theorem aside [Weakens I] [Holder σ] {other : τ} {act : Act τ α} : Upholds I (Act.aside other act : Act σ (α × τ)) :=
  still (.aside other act)

theorem outOfFuel : Upholds I (Act.outOfFuel : Act σ α) :=
  fun _ _ _ => Settles.outOfFuel

theorem ofOption {x : Option α} : Upholds I (Act.ofOption x) := by
  cases x with
  | none => exact outOfFuel
  | some a => exact pure

theorem bind {next : α → Act σ β} (h : Upholds I act) (hnext : ∀ a, Upholds I (next a)) : Upholds I (act >>= next) :=
  fun _ _ hI => (h hI).bind fun a _ hs => hnext a hs

theorem look {next : σ → Act σ α} (h : ∀ s, Upholds I (next s)) : Upholds I (Act.look >>= next) :=
  fun _ s hI => h s hI

theorem change {f : σ → σ} (h : ∀ ⦃clean s⦄, I clean s → I clean (f s)) : Upholds I (Act.change f) :=
  fun _ _ hI => Ends.change (h hI)

theorem holding (h : Upholds I act) (values : List Value) : Upholds I (Act.holding values act) :=
  fun _ _ hI => (h hI).holding values

theorem gathered {act : Act σ Unit} (h : Upholds I act) : Upholds I (Act.gathered act) :=
  fun _ _ hI => Settles.gathered ((h hI).imp (fun _ _ hs _ => hs) fun _ hs => hs)

theorem gather (h : Upholds I act) : Upholds (Second I) (Act.gather act : Act (Bytes × σ) α) :=
  fun _ _ hI => Settles.gather ((h hI).imp (fun _ _ hs _ => hs) fun _ hs _ => hs)

theorem within [Holder τ] [Inhabited σ] {J : Bool → τ → Prop} {clean : Bool} {t : τ} {part : σ} {rebuild : σ → τ}
    (h : Upholds I act) (hpart : I clean part) (hback : ∀ ⦃clean s⦄, I clean s → J clean (rebuild s)) :
    Retains J clean t (Act.within part rebuild act) :=
  Ends.within ((h hpart).imp (fun _ _ hs => hback hs) fun _ hs => hback hs)

theorem onFirst [Holder σ] [Holder τ] [Inhabited σ] (h : Upholds I act) :
    Upholds (First I) (Act.onFirst act : Act (σ × τ) α) :=
  fun _ _ hI => Ends.look (Ends.within (h hI))

theorem onSecond [Holder σ] [Holder τ] [Inhabited σ] (h : Upholds I act) :
    Upholds (Second I) (Act.onSecond act : Act (τ × σ) α) :=
  fun _ _ hI => Ends.look (Ends.within (h hI))

theorem changeSecond {f : σ × τ → σ × τ} (h : ∀ s, (f s).1 = s.1) : Upholds (First I) (Act.change f) := by
  refine change fun clean s hI => ?_
  rw [First, h]
  exact hI

theorem loop {body : β → Act σ (β ⊕ α)} (h : ∀ b, Upholds I (body b)) (fuel : Nat) (b : β) :
    Upholds I (Act.loop body fuel b) := by
  induction fuel generalizing b with
  | zero => exact outOfFuel
  | succ fuel ih =>
    refine (h b).bind fun out => ?_
    cases out with
    | inl b' => exact ih b'
    | inr a => exact pure

theorem countBySteps {rewind advance : Act σ Unit} {ended : Act σ Bool} (hrewind : Upholds I rewind)
    (hended : Upholds I ended) (hadvance : Upholds I advance) (fuel : Nat) :
    Upholds I (countBySteps fuel rewind ended advance) := by
  refine hrewind.bind fun _ => .bind (.loop (fun n => ?_) _ _) fun _ => hrewind.bind fun _ => pure
  refine hended.bind fun e => ?_
  cases e with
  | true => exact pure
  | false => exact hadvance.bind fun _ => pure

theorem drainBySteps {stream : Act σ Unit} {ended : Act σ Bool} (hended : Upholds I ended)
    (hstream : Upholds I stream) (fuel : Nat) : Upholds I (drainBySteps fuel ended stream) := by
  refine .loop (fun _ => ?_) _ _
  refine hended.bind fun e => ?_
  cases e with
  | true => exact pure
  | false => exact hstream.bind fun _ => pure

end Upholds

end PullScript
