import PullScript.Proofs.Copies.Pulling
import PullScript.Proofs.Twin.Standard

namespace PullScript

open Act

namespace Value

inductive Call where
  | number
  | stream
  | entire
  | textEnded
  | current
  | next
  | advance
  | listEnded
  | rewind
  | count

namespace Call

def Reply : Call → Type
  | number => Float
  | stream | entire | advance | rewind => Unit
  | textEnded | listEnded => Bool
  | current => Value
  | next => Option Value
  | count => Nat

instance : (call : Call) → Twinned call.Reply
  | number => inferInstanceAs (Twinned Float)
  | stream | entire | advance | rewind => inferInstanceAs (Twinned Unit)
  | textEnded | listEnded => inferInstanceAs (Twinned Bool)
  | current => inferInstanceAs (Twinned Value)
  | next => inferInstanceAs (Twinned (Option Value))
  | count => inferInstanceAs (Twinned Nat)

def act (p : Puller) : (call : Call) → Act Value call.Reply
  | number => p.number
  | stream => p.stream
  | entire => p.drain
  | textEnded => p.textEnded
  | current => p.current
  | next => p.next
  | advance => p.advance
  | listEnded => p.listEnded
  | rewind => p.rewind
  | count => p.count

theorem act_upheld {feed : Feed} {p : Puller} (h : Retentive feed p) (call : Call) :
    Upheld feed (call.act p) := by
  cases call with
  | number => exact h.number
  | stream => exact h.stream
  | entire => exact h.drain
  | textEnded => exact h.textEnded
  | current => exact h.current
  | next => exact h.next
  | advance => exact h.advance
  | listEnded => exact h.listEnded
  | rewind => exact h.rewind
  | count => exact h.count

theorem act_agree {ports : Bool} {p : Puller} (h : Asks ports p) (call : Call) :
    Agree ⟨ports, true⟩ (call.act p) fun n => call.act (puller n) := by
  cases call with
  | number => exact h.number
  | stream => exact h.stream rfl
  | entire => exact h.drain rfl
  | textEnded => exact h.textEnded
  | current => exact h.current
  | next => exact h.next
  | advance => exact h.advance
  | listEnded => exact h.listEnded
  | rewind => exact h.rewind
  | count => exact h.count

end Call

/-- What some calls leave of a value, and whether all of them were answered. Each call may be made with any
fuel and in any world. -/
inductive Called (value : Value) : Bool → Value → Prop
  | none : Called value true value
  | answered {clean : Bool} {left left' : Value} {n : Nat} {w w' : World} (call : Call) {reply : call.Reply} :
    Called value clean left → call.act (puller n) (left, w) = .ok reply (left', w') → Called value clean left'
  | failed {clean : Bool} {left left' : Value} {n : Nat} {w w' : World} (call : Call) {error : Error} :
    Called value clean left → call.act (puller n) (left, w) = .error (.failed error) (left', w') →
    Called value false left'

section

variable {value left : Value} {clean : Bool}

theorem Called.kept (h : Called value clean left) (hvalue : value.Sealed) (w₀ : World) :
    Kept w₀.feed value clean left := by
  induction h with
  | none => exact hvalue.kept
  | @answered _ _ _ n w _ call _ _ hrun ih =>
    have hsettled := call.act_upheld (retentive_puller w₀ n) value ih () w trivial
    rw [hrun] at hsettled
    exact hsettled.1
  | @failed _ _ _ n w _ call _ _ hrun ih =>
    have hsettled := call.act_upheld (retentive_puller w₀ n) value ih () w trivial
    rw [hrun] at hsettled
    exact (hsettled (by simp)).1

theorem Called.twin {ports : Bool} (h : Called value clean left) (hvalue : Twin ports value value) :
    Twin ports left left := by
  induction h with
  | none => exact hvalue
  | @answered _ _ _ n _ _ call _ _ hrun ih => exact ((call.act_agree (asks_puller ports n)).ok_self n rfl ih hrun).2
  | @failed _ _ _ n _ _ call _ _ hrun ih => exact (call.act_agree (asks_puller ports n)).failed_self n rfl ih hrun

end

theorem Twin.coerced {ports : Bool} {σ : Type} [Holder σ] {n : Nat} {value result : Value} {target : Ty} {s s' : σ}
    {w w' : World} (h : Twin ports value value) (hrun : coerce (puller n) value target (s, w) = .ok result (s', w')) :
    Twin ports result result := by
  let : Twinned σ := ⟨fun _ => Eq⟩
  have : TwinHolder σ := ⟨fun heq => heq ▸ rfl⟩
  have hcoerce : Agree ⟨ports, true⟩ (coerce (puller n) value target : Act σ Value) _ :=
    coerce_agree (asks_puller ports n) h target
  exact (hcoerce.ok_self n rfl rfl hrun).1

theorem Built.twin {registry : Registry} (hready : registry.Ready) {value : Value} (h : Built registry false value) :
    Twin false value value := by
  induction h with
  | number n => exact .number n
  | text bytes => exact .text bytes false
  | chunks parts => exact .chunks parts 0
  | input tap hinputs => cases hinputs
  | builtin hlookup => exact hready.lookup?_twin hlookup
  | list elements _ ih => exact .list elements 0 (.self ih)
  | chain _ hchain ih => exact chainOf_twin ih hchain
  | define name doc _ ih => exact .definedLeft _ _ (.definedRight _ _ ih)
  | copy _ ih => exact ih.copy
  | coerced _ hrun ih => exact ih.coerced hrun
  | @applied n _ _ _ _ _ _ _ _ hrun ihf ihx =>
    exact (((asks_puller false n).apply ihx).ok_self (m := ⟨false, true⟩) n rfl ihf hrun).1

theorem Built.sealed {registry : Registry} (hregistry : Registry.standard = .ok registry) {value : Value}
    (h : Built registry false value) : value.Sealed :=
  ⟨h.unpulled, h.twin (Registry.ready_of_standard hregistry)⟩

end Value

end PullScript
