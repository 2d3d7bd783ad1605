import PullScript.Eval.Bound
import PullScript.Proofs.Eval.Act

namespace PullScript

open Act

variable {ι σ τ α β : Type}
variable {a : α} {error : Error} {next : α → Act σ β} {x : Except Error α} {part other : τ} {rebuild : τ → σ}

/-- An answer and a state in `Q`, or no answer and a state in `E` if the stop counts, in a world in `W`. -/
def Meets (counts : Stop → Prop) (W : World → Prop) (Q : α → σ → Prop) (E : σ → Prop) : Act.Result σ α → Prop
  | .ok a (s, w) => Q a s ∧ W w
  | .error stop (s, w) => counts stop → E s ∧ W w

class Holdable (W : ι → World → Prop) : Prop where
  around {i : ι} {w : World} (held : List (List Value)) : W i w → W i { w with around := held }

/-- From `s`, work ends with an answer and a state in `Q`, or without an answer in a state in `E`. -/
def Ends (counts : Stop → Prop) (W : ι → World → Prop) (s : σ) (act : Act σ α) (Q : α → σ → Prop) (E : σ → Prop) :
    Prop :=
  ∀ i w, W i w → Meets counts (W i) Q E (act (s, w))

theorem Meets.through {counts counts' : Stop → Prop} {W W' : World → Prop} {Q : α → σ → Prop} {E : σ → Prop}
    {Q' : β → τ → Prop} {E' : τ → Prop} {result : Act.Result σ α} (h : Meets counts W Q E result)
    (after : Act.Result σ α → Act.Result τ β)
    (hok : ∀ a s w, Q a s → W w → Meets counts' W' Q' E' (after (.ok a (s, w))))
    (herror : ∀ stop s w, (counts stop → E s ∧ W w) → Meets counts' W' Q' E' (after (.error stop (s, w)))) :
    Meets counts' W' Q' E' (after result) := by
  cases result with
  | ok a s => exact hok a s.1 s.2 h.1 h.2
  | error stop s => exact herror stop s.1 s.2 h

namespace Ends

variable {counts : Stop → Prop} {W : ι → World → Prop} {s : σ} {act : Act σ α} {Q Q' : α → σ → Prop} {E E' : σ → Prop}

theorem imp (h : Ends counts W s act Q E) (hQ : ∀ a s', Q a s' → Q' a s') (hE : ∀ s', E s' → E' s') :
    Ends counts W s act Q' E' :=
  fun i w hw => (h i w hw).through id (fun _ _ _ hs hw' => ⟨hQ _ _ hs, hw'⟩) fun _ _ _ hs hcounts =>
    ⟨hE _ (hs hcounts).1, (hs hcounts).2⟩

theorem pure (h : Q a s) : Ends counts W s (Pure.pure a) Q E :=
  fun _ _ hw => ⟨h, hw⟩

theorem fail (h : E s) : Ends counts W s (Act.fail error : Act σ α) Q E :=
  fun _ _ hw _ => ⟨h, hw⟩

theorem outOfFuel (h : counts .outOfFuel → E s) : Ends counts W s (Act.outOfFuel : Act σ α) Q E :=
  fun _ _ hw hcounts => ⟨h hcounts, hw⟩

theorem bind {R : β → σ → Prop} (h : Ends counts W s act Q E) (hnext : ∀ a s', Q a s' → Ends counts W s' (next a) R E) :
    Ends counts W s (act >>= next) R E := by
  intro i w hw
  have hrun := h i w hw
  rw [bind_run]
  cases hact : act (s, w) with
  | ok a s' =>
    rw [hact] at hrun
    exact hnext a s'.1 hrun.1 i s'.2 hrun.2
  | error stop s' =>
    rw [hact] at hrun
    exact hrun

theorem look {next : σ → Act σ α} (h : Ends counts W s (next s) Q E) : Ends counts W s (Act.look >>= next) Q E :=
  h

theorem change {f : σ → σ} {Q : Unit → σ → Prop} (h : Q () (f s)) : Ends counts W s (Act.change f) Q E :=
  fun _ _ hw => ⟨h, hw⟩

theorem put {s' : σ} {Q : Unit → σ → Prop} (h : Q () s') : Ends counts W s (Act.put s') Q E :=
  fun _ _ hw => ⟨h, hw⟩

theorem ofExcept (h : ∀ a, x = .ok a → Q a s) (hE : E s) : Ends counts W s (Act.ofExcept x) Q E := by
  cases x with
  | error error => exact fail hE
  | ok a => exact pure (h a rfl)

theorem zoom {act : Act τ α} (h : Ends counts W part act (fun a t => Q a (rebuild t)) fun t => E (rebuild t)) :
    Ends counts W s (Act.zoom part rebuild act) Q E := by
  intro i w hw
  rw [zoom_run]
  exact (h i w hw).through _ (fun _ _ _ ht hw' => ⟨ht, hw'⟩) fun _ _ _ ht => ht

variable [Holdable W]

theorem holding (h : Ends counts W s act Q E) (values : List Value) : Ends counts W s (Act.holding values act) Q E := by
  intro i w hw
  rw [holding_run]
  exact (h i _ (Holdable.around (values :: w.around) hw)).through _
    (fun _ _ _ hs hw' => ⟨hs, Holdable.around w.around hw'⟩)
    fun _ _ _ hs hcounts => ⟨(hs hcounts).1, Holdable.around w.around (hs hcounts).2⟩

theorem within [Holder σ] [Inhabited τ] {act : Act τ α}
    (h : Ends counts W part act (fun a t => Q a (rebuild t)) fun t => E (rebuild t)) :
    Ends counts W s (Act.within part rebuild act) Q E :=
  zoom (h.holding _)

theorem onFirst [Holder σ] [Holder τ] [Inhabited σ] {t : τ} {Q : α → σ × τ → Prop} {E : σ × τ → Prop}
    (h : Ends counts W s act (fun a s' => Q a (s', t)) fun s' => E (s', t)) :
    Ends counts W (s, t) (Act.onFirst act) Q E :=
  look (within h)

theorem aside [Holder σ] {act : Act τ α} {Q : α × τ → σ → Prop}
    (h : Ends counts W other act (fun a t => Q (a, t) s) fun _ => E s) : Ends counts W s (Act.aside other act) Q E := by
  intro i w hw
  rw [aside_run]
  exact (h.holding (held s) i w hw).through _ (fun _ _ _ ht hw' => ⟨ht, hw'⟩) fun _ _ _ ht => ht

end Ends

namespace Bound

variable {counts : Stop → Prop} {W : ι → World → Prop} {b : Bound} {k : Nat}

theorem arg_ends : Ends counts W b (arg k) (fun value b' => b' = b ∧ b.args[k]? = some value) (· = b) := by
  refine .look ?_
  split
  case h_1 value hvalue => exact .pure ⟨rfl, hvalue⟩
  case h_2 => exact .fail rfl

variable [Holdable W]

theorem on_ends {act : Act Value α} {Q : α → Bound → Prop} {E : Bound → Prop} (hE : E b)
    (h : ∀ value, b.args[k]? = some value → Ends counts W value act (fun a v => Q a { b with args := b.args.set k v })
      fun v => E { b with args := b.args.set k v }) :
    Ends counts W b (on k act) Q E := by
  refine (arg_ends.imp (fun _ _ hvalue => hvalue) ?_).bind ?_
  · rintro _ rfl
    exact hE
  · rintro value _ ⟨rfl, hvalue⟩
    exact .look (.within (h value hvalue))

theorem onFirst_arg_ends [Holder τ] {s : Bound × τ} {next : Value → Act (Bound × τ) α} {Q : α → Bound × τ → Prop}
    {E : Bound × τ → Prop} (hE : E s) (hnext : ∀ value, s.1.args[k]? = some value → Ends counts W s (next value) Q E) :
    Ends counts W s (onFirst (arg k) >>= next) Q E := by
  refine Ends.bind (Q := fun value s' => s' = s ∧ s.1.args[k]? = some value) (.onFirst (arg_ends.imp ?_ ?_)) ?_
  · rintro value _ ⟨rfl, hvalue⟩
    exact ⟨rfl, hvalue⟩
  · rintro _ rfl
    exact hE
  · rintro value _ ⟨rfl, hvalue⟩
    exact hnext value hvalue

end Bound

abbrev World.Any (_ : Unit) (_ : World) : Prop :=
  True

instance : Holdable World.Any :=
  ⟨fun _ _ => trivial⟩

theorem Ends.any {counts : Stop → Prop} {s : σ} {act : Act σ α} {Q : α → σ → Prop} {E : σ → Prop} (h : ∀ a s', Q a s')
    (hE : ∀ s', E s') : Ends counts World.Any s act Q E := by
  intro _ w _
  cases act (s, w) with
  | ok a s' => exact ⟨h _ _, trivial⟩
  | error stop s' => exact fun _ => ⟨hE _, trivial⟩

/-- From `s`, work ends with an answer and a state in `Q`, or without an answer in a state in `E`. -/
abbrev Leaves (s : σ) (act : Act σ α) (Q : α → σ → Prop) (E : σ → Prop) : Prop :=
  Ends (fun _ => True) World.Any s act Q E

/-- From states in `I`, work gives answers in `P` and leaves states in `I`, also where it fails. -/
def Maintains (I : σ → Prop) (P : α → Prop) (act : Act σ α) : Prop :=
  ∀ ⦃s⦄, I s → Leaves s act (fun a s' => P a ∧ I s') I

namespace Maintains

variable {I : σ → Prop} {P : α → Prop} {act : Act σ α}

theorem pure (h : P a) : Maintains I P (Pure.pure a) :=
  fun _ hI => .pure ⟨h, hI⟩

theorem fail : Maintains I P (Act.fail error) :=
  fun _ hI => .fail hI

theorem bind {R : β → Prop} (h : Maintains I P act) (hnext : ∀ a, P a → Maintains I R (next a)) :
    Maintains I R (act >>= next) :=
  fun _ hI => (h hI).bind fun a _ ⟨ha, hs⟩ => hnext a ha hs

theorem look {next : σ → Act σ α} (h : ∀ s, I s → Maintains I P (next s)) : Maintains I P (Act.look >>= next) :=
  fun s hI => h s hI hI

theorem ofOption {x : Option α} (h : ∀ a, x = some a → P a) : Maintains I P (Act.ofOption x) := by
  cases x with
  | none => exact fun _ hI => .outOfFuel fun _ => hI
  | some a => exact pure (h a rfl)

theorem ofExcept (h : ∀ a, x = .ok a → P a) : Maintains I P (Act.ofExcept x) :=
  fun _ hI => .ofExcept (fun a ha => ⟨h a ha, hI⟩) hI

theorem holding {values : List Value} (h : Maintains I P act) : Maintains I P (Act.holding values act) :=
  fun _ hI => (h hI).holding values

theorem aside [Holder σ] {act : Act τ α} {J : τ → Prop} (h : Leaves other act (fun a t => P a ∧ J t) fun _ => True) :
    Maintains I (fun x => P x.1 ∧ J x.2) (Act.aside other act) :=
  fun _ hI => .aside (h.imp (fun _ _ ha => ⟨ha, hI⟩) fun _ _ => hI)

end Maintains

def Still (act : Act σ α) : Prop :=
  ∀ s, Leaves s act (fun _ s' => s' = s) (· = s)

namespace Still

variable {act : Act σ α}

theorem pure (a : α) : Still (Pure.pure a : Act σ α) :=
  fun _ => .pure rfl

theorem fail (error : Error) : Still (Act.fail error : Act σ α) :=
  fun _ => .fail rfl

theorem bind (h : Still act) (hnext : ∀ a, Still (next a)) : Still (act >>= next) := by
  intro s
  refine (h s).bind fun a s' hs => ?_
  subst hs
  exact hnext a s'

theorem ofOption (x : Option α) : Still (Act.ofOption x : Act σ α) := by
  cases x with
  | none => exact fun _ => .outOfFuel fun _ => rfl
  | some a => exact pure a

theorem ofExcept (x : Except Error α) : Still (Act.ofExcept x : Act σ α) :=
  fun _ => .ofExcept (fun _ _ => rfl) rfl

theorem write (bytes : Bytes) : Still (Act.write bytes : Act σ Unit) := by
  intro s _ w _
  rw [Act.write]
  cases w.out.write bytes with
  | mk out room => cases room with
    | true => exact ⟨rfl, trivial⟩
    | false => exact fun _ => ⟨rfl, trivial⟩

theorem holding (h : Still act) (values : List Value) : Still (Act.holding values act) :=
  fun s => (h s).holding values

theorem aside [Holder σ] (other : τ) (act : Act τ α) : Still (Act.aside other act : Act σ (α × τ)) :=
  fun _ => .aside (.any (fun _ _ => rfl) fun _ => rfl)

end Still

end PullScript
