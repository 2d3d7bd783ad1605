import PullScript.Proofs.Eval.Fuel
import PullScript.Proofs.Twin.Basic

namespace PullScript

open Act

variable {values values' : List Value}

/-- What is the same in the worlds of two sides: what values share with the outside, and where
streamed bytes go. -/
structure Mode where
  ports : Bool
  loud : Bool

structure World.Twin (m : Mode) (w w' : World) : Prop where
  out : m.loud = true → w.out = w'.out
  taps : m.ports = true → w.taps = w'.taps
  sinks : m.ports = true → w.sinks = w'.sinks
  meters : m.ports = true → w.meters = w'.meters
  around : m.ports = true → ∀ tap, w.offsetsAround tap = w'.offsetsAround tap

/-- The type of the result that all arguments at work belong to, which no work changes. -/
class Bound.Tied where
  ty : Ty

/-- Data of which two may be twins. Where no values are inside, only equals are. -/
class Twinned (α : Type) where
  twin : Bool → α → α → Prop

export Twinned (twin)

class Data (α : Type) : Prop where

namespace Twinned

instance {α : Type} [Data α] : Twinned α := ⟨fun _ => Eq⟩

instance : Data Unit where

instance : Data Bool where

instance : Data Nat where

instance : Data Float where

instance : Data String where

instance : Data Bytes where

instance : Data (Option Float) where

instance : Data (Option Bytes) where

instance : Data Tap where

instance : Data Once where

instance : Data Cutter where

instance : Data Splitter where

instance : Data Concat where

instance : Data Take where

instance : Twinned Value := ⟨Value.Twin⟩

instance : Twinned (Option Value) := ⟨Value.OptionTwin⟩

instance : Twinned (List Value) := ⟨Value.AllTwin⟩

instance : Twinned Value.Numeric := ⟨fun ports a b => Value.Twin ports a.value b.value⟩

inductive NumericTwin (ports : Bool) : Option Value.Numeric → Option Value.Numeric → Prop
  | none : NumericTwin ports none none
  | some {a b : Value.Numeric} : Value.Twin ports a.value b.value →
    NumericTwin ports (some a) (some b)

instance : Twinned (Option Value.Numeric) := ⟨NumericTwin⟩

instance [Bound.Tied] : Twinned Bound :=
  ⟨fun ports b b' => b.name = b'.name ∧ (b.ty = Bound.Tied.ty ∧ b'.ty = Bound.Tied.ty) ∧
    Value.AllTwin ports b.args b'.args⟩

instance : Twinned (Joiner Value) :=
  ⟨fun ports j j' => j.separator = j'.separator ∧ Value.OptionTwin ports j.item j'.item ∧
    j.started = j'.started⟩

inductive JoinerTwin (ports : Bool) : Option (Joiner Value) → Option (Joiner Value) → Prop
  | none : JoinerTwin ports none none
  | some {j j' : Joiner Value} : twin ports j j' → JoinerTwin ports (some j) (some j')

instance : Twinned (Option (Joiner Value)) := ⟨JoinerTwin⟩

instance : Twinned (Init Value) :=
  ⟨fun ports s s' => Value.OptionTwin ports s.held s'.held ∧ s.started = s'.started⟩

inductive ItemsTwin (ports : Bool) : Option (List Value) → Option (List Value) → Prop
  | none : ItemsTwin ports none none
  | some {as bs : List Value} : Value.AllTwin ports as bs → ItemsTwin ports (some as) (some bs)

instance : Twinned (Reverse Value) :=
  ⟨fun ports s s' => ItemsTwin ports s.items s'.items ∧ s.position = s'.position⟩

instance {α β : Type} [Twinned α] [Twinned β] : Twinned (α × β) :=
  ⟨fun ports x y => twin ports x.1 y.1 ∧ twin ports x.2 y.2⟩

inductive SumTwin {α β : Type} [Twinned α] [Twinned β] (ports : Bool) : α ⊕ β → α ⊕ β → Prop
  | inl {a a' : α} : twin ports a a' → SumTwin ports (.inl a) (.inl a')
  | inr {b b' : β} : twin ports b b' → SumTwin ports (.inr b) (.inr b')

instance {α β : Type} [Twinned α] [Twinned β] : Twinned (α ⊕ β) := ⟨SumTwin⟩

instance : (ask : TextAsk) → Twinned ask.Reply
  | .stream => inferInstanceAs (Twinned Unit)
  | .ended => inferInstanceAs (Twinned Bool)
  | .drain => inferInstanceAs (Twinned Unit)
  | .takeNumber => inferInstanceAs (Twinned (Option Value.Numeric))

instance : (ask : ListAsk) → Twinned ask.Reply
  | .current => inferInstanceAs (Twinned Value)
  | .advance => inferInstanceAs (Twinned Unit)
  | .ended => inferInstanceAs (Twinned Bool)
  | .rewind => inferInstanceAs (Twinned Unit)
  | .count => inferInstanceAs (Twinned Nat)

end Twinned

class TwinHolder (σ : Type) [Twinned σ] [Holder σ] : Prop where
  uses_eq {ports : Bool} {s t : σ} : twin ports s t → Value.usesAll (held s) = Value.usesAll (held t)

class TwinBlank (σ : Type) [Twinned σ] [Inhabited σ] : Prop where
  blank_twin {ports : Bool} : twin ports (default : σ) default

section Instances

open Twinned

instance : TwinHolder Value := ⟨fun h => (Value.AllTwin.singleton h).uses_eq⟩

instance : TwinHolder (List Value) := ⟨Value.AllTwin.uses_eq⟩

theorem Value.OptionTwin.held_twin {ports : Bool} {a b : Option Value} (h : Value.OptionTwin ports a b) :
    Value.AllTwin ports (held a) (held b) := by
  cases h with
  | none => exact .nil
  | some h => exact .singleton h

instance : TwinHolder (Option Value) := ⟨fun h => h.held_twin.uses_eq⟩

instance [Bound.Tied] : TwinHolder Bound := ⟨fun h => h.2.2.uses_eq⟩

instance : TwinHolder (Joiner Value) := ⟨fun h => h.2.1.held_twin.uses_eq⟩

instance : TwinHolder (Option (Joiner Value)) where
  uses_eq h := by
    cases h with
    | none => rfl
    | some h => exact h.2.1.held_twin.uses_eq

instance : TwinHolder (Init Value) := ⟨fun h => h.1.held_twin.uses_eq⟩

instance : TwinHolder (Reverse Value) where
  uses_eq := by
    rintro _ ⟨items, _⟩ ⟨items', _⟩ ⟨h, -⟩
    cases h with
    | none => rfl
    | some h => exact h.uses_eq

instance {α : Type} [Data α] [Holder α] : TwinHolder α where
  uses_eq h := by
    cases h
    rfl

instance {α β : Type} [Twinned α] [Twinned β] [Holder α] [Holder β] [TwinHolder α] [TwinHolder β] :
    TwinHolder (α × β) where
  uses_eq h := (Value.usesAll_append ..).trans
    ((congr (congrArg _ (TwinHolder.uses_eq h.1)) (TwinHolder.uses_eq h.2)).trans
      (Value.usesAll_append ..).symm)

instance : TwinBlank Value := ⟨.number 0⟩

instance : TwinBlank (List Value) := ⟨.nil⟩

instance : TwinBlank (Option Value) := ⟨.none⟩

instance : TwinBlank (Joiner Value) := ⟨rfl, .none, rfl⟩

instance : TwinBlank (Option (Joiner Value)) := ⟨.none⟩

instance : TwinBlank (Init Value) := ⟨.none, rfl⟩

instance : TwinBlank (Reverse Value) := ⟨.none, rfl⟩

instance {α : Type} [Data α] [Inhabited α] : TwinBlank α := ⟨rfl⟩

instance {α β : Type} [Twinned α] [Twinned β] [Inhabited α] [Inhabited β] [TwinBlank α]
    [TwinBlank β] : TwinBlank (α × β) :=
  ⟨TwinBlank.blank_twin, TwinBlank.blank_twin⟩

end Instances

namespace World

theorem offsetsAround_cons (w : World) (values : List Value) (tap : Nat) :
    offsetsAround { w with around := values :: w.around } tap = Value.offsetsAt tap values ++ w.offsetsAround tap := by
  simp only [offsetsAround, Value.offsetsAt, List.flatten_cons, Value.usesAll_append,
    List.filterMap_append]

namespace Twin

variable {m : Mode} {w w' : World}

theorem refl (m : Mode) (w : World) : Twin m w w :=
  ⟨fun _ => rfl, fun _ => rfl, fun _ => rfl, fun _ => rfl, fun _ _ => rfl⟩

theorem hold (h : Twin m w w') (huses : Value.usesAll values = Value.usesAll values') :
    Twin m { w with around := values :: w.around } { w' with around := values' :: w'.around } where
  out := h.out
  taps := h.taps
  sinks := h.sinks
  meters := h.meters
  around hports tap := by
    rw [offsetsAround_cons, offsetsAround_cons, h.around hports, Value.offsetsAt, Value.offsetsAt,
      huses]

theorem letGo {v v' : World} (h : Twin m w w') (hbefore : Twin m v v') :
    Twin m { w with around := v.around } { w' with around := v'.around } where
  out := h.out
  taps := h.taps
  sinks := h.sinks
  meters := h.meters
  around := hbefore.around

theorem redirect (h : Twin m w w') (out : Sink) : Twin ⟨m.ports, true⟩ { w with out } { w' with out } where
  out _ := rfl
  taps := h.taps
  sinks := h.sinks
  meters := h.meters
  around := h.around

theorem restore {v v' : World} (h : Twin ⟨m.ports, true⟩ w w') (hbefore : Twin m v v') :
    Twin m { w with out := v.out } { w' with out := v'.out } where
  out := hbefore.out
  taps := h.taps
  sinks := h.sinks
  meters := h.meters
  around := h.around

end Twin

/-- What worlds that are twins become by work on both sides, which holds no values any more when it
ends. -/
structure Later (m : Mode) (v v' w w' : World) : Prop where
  twin : Twin m w w'
  left : w.around = v.around
  right : w'.around = v'.around

namespace Later

variable {m : Mode} {u u' v v' w w' : World}

theorem refl (h : Twin m w w') : Later m w w' w w' :=
  ⟨h, rfl, rfl⟩

theorem trans (h : Later m u u' v v') (hnext : Later m v v' w w') : Later m u u' w w' :=
  ⟨hnext.twin, hnext.left.trans h.left, hnext.right.trans h.right⟩

theorem restore {out : Sink} (h : Later ⟨m.ports, true⟩ { v with out } { v' with out } w w') (hbefore : Twin m v v') :
    Later m v v' { w with out := v.out } { w' with out := v'.out } :=
  ⟨h.twin.restore hbefore, h.left, h.right⟩

end Later

end World

variable {σ τ α β : Type} [Twinned σ] [Twinned τ] [Twinned α] [Twinned β] {m : Mode}

/-- Answers and states that are twins, or the same error and states that are twins, of work that was
begun in the worlds `v` and `v'`. -/
inductive Agrees (m : Mode) (v v' : World) : Act.Result σ α → Act.Result σ α → Prop
  | ok {x y : α} {s t : σ} {w w' : World} : twin m.ports x y → twin m.ports s t →
    World.Later m v v' w w' → Agrees m v v' (.ok x (s, w)) (.ok y (t, w'))
  | failed {s t : σ} {w w' : World} (error : Error) : twin m.ports s t → World.Later m v v' w w' →
    Agrees m v v' (.error (.failed error) (s, w)) (.error (.failed error) (t, w'))

theorem Agrees.after {u u' v v' : World} {ra rb : Act.Result σ α} (h : Agrees m v v' ra rb)
    (hbefore : World.Later m u u' v v') : Agrees m u u' ra rb := by
  cases h with
  | ok hxy hst hw => exact .ok hxy hst (hbefore.trans hw)
  | failed error hst hw => exact .failed error hst (hbefore.trans hw)

/-- The work `a` from `s` and the work `b` from `t` agree in all worlds that are twins. -/
def AgreeFrom (m : Mode) (s t : σ) (a : Act σ α) (b : Nat → Act σ α) : Prop :=
  ∀ w w', World.Twin m w w' → Both (Agrees m w w') a (s, w) b (t, w')

def Agree (m : Mode) (a : Act σ α) (b : Nat → Act σ α) : Prop :=
  ∀ ⦃s t⦄, twin m.ports s t → AgreeFrom m s t a b

variable {x : α} {k l : σ → σ}

namespace AgreeFrom

variable {s t : σ} {a : Act σ α} {b : Nat → Act σ α}

theorem pure {y : α} (hxy : twin m.ports x y) (hst : twin m.ports s t) :
    AgreeFrom m s t (Pure.pure x) fun _ => Pure.pure y :=
  fun _ _ hw => .inr ⟨_, .of_eq fun _ => rfl, .ok hxy hst (.refl hw)⟩

theorem fail (error : Error) (hst : twin m.ports s t) :
    AgreeFrom m s t (Act.fail error : Act σ α) fun _ => Act.fail error :=
  fun _ _ hw => .inr ⟨_, .of_eq fun _ => rfl, .failed error hst (.refl hw)⟩

theorem outOfFuel : AgreeFrom m s t (Act.outOfFuel : Act σ α) b :=
  fun _ _ _ => .inl ⟨_, rfl⟩

variable {t' : σ}

theorem moved {s' : σ} {a' : Act σ α} {b' : Nat → Act σ α} (h : AgreeFrom m s t a b)
    (ha : ∀ w, a' (s', w) = a (s, w)) (hb : ∀ fuel w, b' fuel (t', w) = b fuel (t, w)) : AgreeFrom m s' t' a' b' :=
  fun w w' hw => (h w w' hw).through (fun s => ⟨s, rfl⟩) (fun s => ⟨s, rfl⟩) (ha w) (hb · w')
    fun _ _ hr => hr

theorem congr {a' : Act σ α} {b' : Nat → Act σ α} (h : AgreeFrom m s t a b) (ha : ∀ w, a' (s, w) = a (s, w))
    (hb : ∀ fuel w, b' fuel (t, w) = b fuel (t, w)) : AgreeFrom m s t a' b' :=
  h.moved ha hb

theorem bind {f : α → Act σ β} {g : Nat → α → Act σ β} (h : AgreeFrom m s t a b)
    (hnext : ∀ x y s' t', twin m.ports x y → twin m.ports s' t' → AgreeFrom m s' t' (f x) fun fuel => g fuel y) :
    AgreeFrom m s t (a >>= f) fun fuel => b fuel >>= g fuel := by
  intro w w' hw
  obtain ⟨s', hout⟩ | ⟨result, hcomes, hresult⟩ := h w w' hw
  · exact .inl ⟨s', bind_of_error hout f⟩
  unfold Both
  generalize hrun : a (s, w) = left at hresult
  cases hresult with
  | ok hxy hst hw' =>
    rw [bind_of_ok hrun]
    obtain hout | ⟨result, hcomes', hresult⟩ := hnext _ _ _ _ hxy hst _ _ hw'.twin
    · exact .inl hout
    · exact .inr ⟨result, hcomes.bind hcomes', hresult.after hw'⟩
  | failed error hst hw' =>
    rw [bind_of_error hrun]
    exact .inr ⟨_, hcomes.bind_error, .failed error hst hw'⟩

theorem look {f : σ → Act σ α} {g : Nat → σ → Act σ α} (h : AgreeFrom m s t (f s) fun fuel => g fuel t) :
    AgreeFrom m s t (Act.look >>= f) fun fuel => Act.look >>= g fuel :=
  h.congr (fun _ => rfl) fun _ _ => rfl

theorem put {s' : σ} {f : Unit → Act σ α} {g : Nat → Unit → Act σ α}
    (h : AgreeFrom m s' t' (f ()) fun fuel => g fuel ()) :
    AgreeFrom m s t (Act.put s' >>= f) fun fuel => Act.put t' >>= g fuel :=
  h.moved (fun _ => rfl) fun _ _ => rfl

theorem change {f : Unit → Act σ α} {g : Nat → Unit → Act σ α}
    (h : AgreeFrom m (k s) (l t) (f ()) fun fuel => g fuel ()) :
    AgreeFrom m s t (Act.change k >>= f) fun fuel => Act.change l >>= g fuel :=
  h.moved (fun _ => rfl) fun _ _ => rfl

theorem put_end {s' : σ} (h : twin m.ports s' t') : AgreeFrom m s t (Act.put s') fun _ => Act.put t' :=
  fun _ _ hw => .inr ⟨_, .of_eq fun _ => rfl, .ok rfl h (.refl hw)⟩

theorem change_end (h : twin m.ports (k s) (l t)) :
    AgreeFrom m s t (Act.change k) fun _ => Act.change l :=
  fun _ _ hw => .inr ⟨_, .of_eq fun _ => rfl, .ok rfl h (.refl hw)⟩

variable {rebuild rebuild' : τ → σ} {part part' : τ}

theorem zoom {a : Act τ α} {b : Nat → Act τ α}
    (h : AgreeFrom m part part' a b) (hrebuild : ∀ q q', twin m.ports q q' → twin m.ports (rebuild q) (rebuild' q')) :
    AgreeFrom m s t (Act.zoom part rebuild a) fun fuel => Act.zoom part' rebuild' (b fuel) := by
  intro w w' hw
  refine (h w w' hw).on (zoom_run ..) (fun _ => zoom_run ..) fun ra rb hr => ?_
  cases hr with
  | ok hxy hst hw' => exact .ok hxy (hrebuild _ _ hst) hw'
  | failed error hst hw' => exact .failed error (hrebuild _ _ hst) hw'

theorem holdingUses (h : AgreeFrom m s t a b) (huses : Value.usesAll values = Value.usesAll values') :
    AgreeFrom m s t (Act.holding values a) fun fuel => Act.holding values' (b fuel) := by
  intro w w' hw
  refine (h _ _ (hw.hold huses)).on (holding_run ..) (fun _ => holding_run ..) fun ra rb hr => ?_
  cases hr with
  | ok hxy hst hw' => exact .ok hxy hst ⟨hw'.twin.letGo hw, rfl, rfl⟩
  | failed error hst hw' => exact .failed error hst ⟨hw'.twin.letGo hw, rfl, rfl⟩

theorem holding (h : AgreeFrom m s t a b) (hvalues : Value.AllTwin m.ports values values') :
    AgreeFrom m s t (Act.holding values a) fun fuel => Act.holding values' (b fuel) :=
  h.holdingUses hvalues.uses_eq

theorem withinUses [Holder σ] [Inhabited τ] {a : Act τ α} {b : Nat → Act τ α} (h : AgreeFrom m part part' a b)
    (huses : Value.usesAll (held (rebuild default)) = Value.usesAll (held (rebuild' default)))
    (hrebuild : ∀ q q', twin m.ports q q' → twin m.ports (rebuild q) (rebuild' q')) :
    AgreeFrom m s t (Act.within part rebuild a) fun fuel => Act.within part' rebuild' (b fuel) :=
  zoom (h.holdingUses huses) hrebuild

theorem within [Holder σ] [TwinHolder σ] [Inhabited τ] [TwinBlank τ]
    {a : Act τ α} {b : Nat → Act τ α} (h : AgreeFrom m part part' a b)
    (hrebuild : ∀ q q', twin m.ports q q' → twin m.ports (rebuild q) (rebuild' q')) :
    AgreeFrom m s t (Act.within part rebuild a) fun fuel => Act.within part' rebuild' (b fuel) :=
  h.withinUses (TwinHolder.uses_eq (hrebuild _ _ TwinBlank.blank_twin)) hrebuild

theorem aside [Holder σ] [TwinHolder σ] {other other' : τ} {a : Act τ α} {b : Nat → Act τ α}
    (h : AgreeFrom m other other' a b) (hst : twin m.ports s t) :
    AgreeFrom m s t (Act.aside other a) fun fuel => Act.aside other' (b fuel) := by
  intro w w' hw
  refine (h.holdingUses (TwinHolder.uses_eq hst) w w' hw).through (fun _ => ⟨_, rfl⟩)
    (fun _ => ⟨_, rfl⟩) (aside_run ..) (fun _ => aside_run ..) fun ra rb hr => ?_
  cases hr with
  | ok hxy hother hw' => exact .ok ⟨hxy, hother⟩ hst hw'
  | failed error _ hw' => exact .failed error hst hw'

theorem loop {body : β → Act σ (β ⊕ α)} {body' : Nat → β → Act σ (β ⊕ α)}
    (h : ∀ b b', twin m.ports b b' → Agree m (body b) fun fuel => body' fuel b') (rounds passed : Nat) {b b' : β}
    (hb : twin m.ports b b') (hst : twin m.ports s t) :
    AgreeFrom m s t (Act.loop body rounds b) fun fuel => Act.loop (body' fuel) (fuel - passed) b' := by
  induction rounds generalizing s t b b' passed with
  | zero => exact outOfFuel
  | succ rounds ih =>
    have hround : AgreeFrom m s t (Act.loop body (rounds + 1) b)
        fun fuel => body' fuel b' >>= afterRound body' (passed + 1) fuel := by
      refine (h b b' hb hst).bind fun out out' s' t' hout hst' => ?_
      cases hout with
      | inl hb' => exact ih (passed + 1) hb' hst'
      | inr ha => exact pure ha hst'
    exact fun w w' hw => (hround w w' hw).imp_right
      fun ⟨result, hcomes, hresult⟩ => ⟨result, hcomes.loop_round, hresult⟩

end AgreeFrom

namespace Agree

variable {a : Act σ α} {b : Nat → Act σ α}

theorem pure {y : α} (hxy : twin m.ports x y) : Agree m (Pure.pure x : Act σ α) fun _ => Pure.pure y :=
  fun _ _ hst => .pure hxy hst

theorem fail (error : Error) : Agree m (Act.fail error : Act σ α) fun _ => Act.fail error :=
  fun _ _ hst => .fail error hst

theorem outOfFuel : Agree m (Act.outOfFuel : Act σ α) b :=
  fun _ _ _ => .outOfFuel

theorem bind {f : α → Act σ β} {g : Nat → α → Act σ β} (h : Agree m a b)
    (hnext : ∀ x y, twin m.ports x y → Agree m (f x) fun fuel => g fuel y) :
    Agree m (a >>= f) fun fuel => b fuel >>= g fuel :=
  fun _ _ hst => (h hst).bind fun x y _ _ hxy hst' => hnext x y hxy hst'

theorem look {f : σ → Act σ α} {g : Nat → σ → Act σ α}
    (h : ∀ s t, twin m.ports s t → AgreeFrom m s t (f s) fun fuel => g fuel t) :
    Agree m (Act.look >>= f) fun fuel => Act.look >>= g fuel :=
  fun s t hst => (h s t hst).look

theorem change (h : ∀ s t, twin m.ports s t → twin m.ports (k s) (l t)) :
    Agree m (Act.change k) fun _ => Act.change l :=
  fun s t hst => .change_end (h s t hst)

theorem ofOption {x : Option α} (h : ∀ a, x = some a → twin m.ports a a) :
    Agree m (Act.ofOption x : Act σ α) fun _ => Act.ofOption x := by
  cases x with
  | none => exact outOfFuel
  | some a => exact pure (h a rfl)

theorem holding (h : Agree m a b) (hvalues : Value.AllTwin m.ports values values') :
    Agree m (Act.holding values a) fun fuel => Act.holding values' (b fuel) :=
  fun _ _ hst => (h hst).holding hvalues

theorem aside [Holder σ] [TwinHolder σ] {other other' : τ} {a : Act τ α} {b : Nat → Act τ α} (h : Agree m a b)
    (hother : twin m.ports other other') :
    Agree m (Act.aside other a : Act σ (α × τ)) fun fuel => Act.aside other' (b fuel) :=
  fun _ _ hst => (h hother).aside hst

theorem onFirst [Holder σ] [Holder τ] [TwinHolder τ] [Inhabited σ] (h : Agree m a b) :
    Agree m (Act.onFirst a : Act (σ × τ) α) fun fuel => Act.onFirst (b fuel) := by
  refine look fun s t hst => .withinUses (h hst.1) ?_ fun _ _ hq => ⟨hq, hst.2⟩
  exact (Value.usesAll_append ..).trans
    ((congrArg (_ ++ ·) (TwinHolder.uses_eq hst.2)).trans (Value.usesAll_append ..).symm)

theorem onSecond [Holder σ] [Holder τ] [TwinHolder σ] [Inhabited τ] {a : Act τ α} {b : Nat → Act τ α}
    (h : Agree m a b) : Agree m (Act.onSecond a : Act (σ × τ) α) fun fuel => Act.onSecond (b fuel) := by
  refine look fun s t hst => .withinUses (h hst.2) ?_ fun _ _ hq => ⟨hst.1, hq⟩
  exact (Value.usesAll_append ..).trans
    ((congrArg (· ++ _) (TwinHolder.uses_eq hst.1)).trans (Value.usesAll_append ..).symm)

theorem loop {body : β → Act σ (β ⊕ α)} {body' : Nat → β → Act σ (β ⊕ α)}
    (h : ∀ b b', twin m.ports b b' → Agree m (body b) fun fuel => body' fuel b') (rounds : Nat) {b b' : β}
    (hb : twin m.ports b b') : Agree m (Act.loop body rounds b) fun fuel => Act.loop (body' fuel) fuel b' :=
  fun _ _ hst => .loop h rounds 0 hb hst

theorem gathered {a : Act σ Unit} {b : Nat → Act σ Unit} (h : Agree ⟨m.ports, true⟩ a b) :
    Agree m (Act.gathered a) fun fuel => Act.gathered (b fuel) := by
  intro s t hst w w' hw
  refine (h hst _ _ (hw.redirect {})).through (fun _ => ⟨_, rfl⟩) (fun _ => ⟨_, rfl⟩)
    (gathered_run ..) (fun _ => gathered_run ..) fun ra rb hr => ?_
  cases hr with
  | ok _ hst' hw' => exact .ok (congrArg Sink.bytes (hw'.twin.out rfl)) hst' (hw'.restore hw)
  | failed error hst' hw' => exact .failed error hst' (hw'.restore hw)

theorem gather (h : Agree ⟨m.ports, true⟩ a b) : Agree m (Act.gather a) fun fuel => Act.gather (b fuel) := by
  rintro ⟨buffer, s⟩ ⟨_, t⟩ ⟨rfl, hst⟩ w w' hw
  refine (h hst _ _ (hw.redirect {})).through (fun _ => ⟨_, rfl⟩) (fun _ => ⟨_, rfl⟩)
    (gather_run ..) (fun _ => gather_run ..) fun ra rb hr => ?_
  cases hr with
  | ok hxy hst' hw' =>
    exact .ok hxy ⟨congrArg (fun out : Sink => buffer ++ out.bytes) (hw'.twin.out rfl), hst'⟩ (hw'.restore hw)
  | failed error hst' hw' =>
    exact .failed error ⟨congrArg (fun out : Sink => buffer ++ out.bytes) (hw'.twin.out rfl), hst'⟩
      (hw'.restore hw)

end Agree

namespace Agree

theorem write (bytes : Bytes) (hloud : m.loud = true) :
    Agree m (Act.write bytes : Act σ Unit) fun _ => Act.write bytes := by
  intro s t hst w w' hw
  refine .inr ⟨_, .of_eq fun _ => rfl, ?_⟩
  simp only [Act.write, ← hw.out hloud]
  have htwin (out : Sink) : World.Later m w w' { w with out } { w' with out } :=
    ⟨⟨fun _ => rfl, hw.taps, hw.sinks, hw.meters, hw.around⟩, rfl, rfl⟩
  cases w.out.write bytes with
  | mk out done =>
    cases done with
    | true => exact .ok rfl hst (htwin out)
    | false => exact .failed _ hst (htwin out)

theorem world {γ : Type} {f : World → γ} {k : γ → Act σ α} {l : Nat → γ → Act σ α}
    (hf : ∀ w w', World.Twin m w w' → f w = f w') (h : ∀ x, Agree m (k x) fun fuel => l fuel x) :
    Agree m (Act.world f >>= k) fun fuel => Act.world f >>= l fuel := by
  intro s t hst w w' hw
  have hrun := h (f w) hst w w' hw
  refine hrun.congr rfl fun fuel => ?_
  rw [hf w w' hw]
  rfl

theorem changeWorld {f g : World → World} (h : ∀ w w', World.Twin m w w' → World.Later m w w' (f w) (g w')) :
    Agree m (Act.changeWorld f : Act σ Unit) fun _ => Act.changeWorld g :=
  fun _ _ hst w w' hw => .inr ⟨_, .of_eq fun _ => rfl, .ok rfl hst (h w w' hw)⟩

theorem readMeter (meter : Nat) (hports : m.ports = true) :
    Agree m (Act.readMeter meter : Act σ Float) fun _ => Act.readMeter meter := by
  refine world (fun w w' hw => by rw [hw.meters hports]) fun read => bind (changeWorld ?_) ?_
  · intro w w' hw
    exact ⟨⟨hw.out, hw.taps, hw.sinks, fun h => by rw [hw.meters h], hw.around⟩, rfl, rfl⟩
  · rintro _ _ -
    split
    · exact fail _
    · exact pure rfl

theorem setTap {w w' : World} (hw : World.Twin m w w') (tap : Nat) (t : Tap) :
    World.Later m w w' { w with taps := w.taps.setIfInBounds tap t }
      { w' with taps := w'.taps.setIfInBounds tap t } :=
  ⟨⟨hw.out, fun h => by rw [hw.taps h], hw.sinks, hw.meters, hw.around⟩, rfl, rfl⟩

theorem fillTap (tap offset : Nat) (hports : m.ports = true) :
    Agree m (Act.fillTap tap offset : Act σ Tap) fun _ => Act.fillTap tap offset := by
  refine world (fun w w' hw => by rw [hw.taps hports]) fun filled => ?_
  refine bind (changeWorld fun w w' hw => setTap hw tap filled.1) ?_
  rintro _ _ -
  split
  · exact fail _
  · exact pure rfl

theorem streamTap (tap offset : Nat) (hports : m.ports = true) (hloud : m.loud = true) :
    Agree m (Act.streamTap tap offset : Act σ Nat) fun _ => Act.streamTap tap offset := by
  refine bind (fillTap tap offset hports) ?_
  rintro t _ rfl
  refine bind (write (t.after offset) hloud) ?_
  rintro _ _ -
  refine world (fun w w' hw => by rw [hw.around hports tap]) fun oldest => ?_
  refine bind (changeWorld fun w w' hw => setTap hw tap (t.trim oldest)) ?_
  rintro _ _ -
  exact pure rfl

theorem intoSink {a : Act σ α} {b : Nat → Act σ α} (sink : Nat) (hports : m.ports = true)
    (h : Agree ⟨m.ports, true⟩ a b) : Agree m (Act.intoSink sink a) fun fuel => Act.intoSink sink (b fuel) := by
  intro s t hst w w' hw
  have hinto : World.Twin ⟨m.ports, true⟩ { w with out := w.sinks.getD sink {} }
      { w' with out := w'.sinks.getD sink {} } :=
    ⟨fun _ => by rw [hw.sinks hports], hw.taps, hw.sinks, hw.meters, hw.around⟩
  refine (h hst _ _ hinto).on (intoSink_run ..) (fun _ => intoSink_run ..) fun ra rb hr => ?_
  have hsettle {v v' : World} (hv : World.Twin ⟨m.ports, true⟩ v v') :
      World.Twin m { v with out := w.out, sinks := v.sinks.setIfInBounds sink v.out }
        { v' with out := w'.out, sinks := v'.sinks.setIfInBounds sink v'.out } :=
    ⟨hw.out, hv.taps, fun h => by rw [hv.sinks h, hv.out rfl], hv.meters, hv.around⟩
  cases hr with
  | ok hxy hst' hv => exact .ok hxy hst' ⟨hsettle hv.twin, hv.left, hv.right⟩
  | failed error hst' hv => exact .failed error hst' ⟨hsettle hv.twin, hv.left, hv.right⟩

end Agree

section Runs

variable {act : Act σ α} {acts : Nat → Act σ α} {s s' : σ} {w w' : World} (h : Agree m act acts) (n : Nat)
  (hself : acts n = act) (hs : twin m.ports s s)
include h hself hs

theorem Agree.comes_self (hended : ∀ t, act (s, w) ≠ .error .outOfFuel t) : Agrees m w w (act (s, w)) (act (s, w)) := by
  obtain ⟨t, hout⟩ | ⟨result, hcomes, hresult⟩ := h hs w w (.refl _ w)
  · exact absurd hout (hended t)
  · have hsame : acts n (s, w) = result := hcomes.eq_of_ended (by rwa [hself])
    rw [hself] at hsame
    rwa [← hsame] at hresult

theorem Agree.ok_self (hrun : act (s, w) = .ok x (s', w')) : twin m.ports x x ∧ twin m.ports s' s' := by
  have hended : ∀ t, act (s, w) ≠ .error .outOfFuel t := by simp [hrun]
  have hcomes := h.comes_self n hself hs hended
  rw [hrun] at hcomes
  cases hcomes with
  | ok hx hs' => exact ⟨hx, hs'⟩

theorem Agree.failed_self {error : Error} (hrun : act (s, w) = .error (.failed error) (s', w')) :
    twin m.ports s' s' := by
  have hended : ∀ t, act (s, w) ≠ .error .outOfFuel t := by simp [hrun]
  have hcomes := h.comes_self n hself hs hended
  rw [hrun] at hcomes
  cases hcomes with
  | failed _ hs' => exact hs'

end Runs

end PullScript
