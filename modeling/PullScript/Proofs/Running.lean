import PullScript.Application
import PullScript.Proofs.Eval.Act

namespace PullScript

open Act

def Act.Result.captured {σ : Type} : Act.Result σ Unit → Bytes × Option Stop
  | .ok () (_, w) => (w.out.bytes, none)
  | .error stop (_, w) => (w.out.bytes, some stop)

theorem capture_eq_ok_iff {σ : Type} {sink : Sink} {act : Act σ Unit} {s : σ} {w : World}
    {x : Bytes × Option Stop} :
    (∃ s', capture sink act (s, w) = .ok x s') ↔
      Act.Result.captured (act (s, { w with out := sink })) = x := by
  simp only [capture]
  cases act (s, { w with out := sink }) <;> simp [Act.Result.captured]

namespace Application

/-- Running on a reader, into a sink, writes `bytes` and ends as `stop` says. -/
def Writes (fuel : Nat) (reads : List Read) (sink : Sink) (s : Application × World) (bytes : Bytes)
    (stop : Option Stop) : Prop :=
  ∃ s', capture sink (run (puller fuel) reads) s = .ok (bytes, stop) s'

def runFrom (p : Puller) (tap : Nat) : Act Application Unit := do
  let result ← result p tap
  let text ← coerce p result (.str true)
  let ((), _) ← aside text p.drain

theorem writes_iff {fuel : Nat} {reads : List Read} {sink : Sink} {app : Application} {w : World}
    {bytes : Bytes} {stop : Option Stop} :
    Writes fuel reads sink (app, w) bytes stop ↔
      Act.Result.captured (runFrom (puller fuel) w.taps.size
        (app, { w with out := sink, taps := w.taps.push { reads } })) = (bytes, stop) :=
  capture_eq_ok_iff

end Application

end PullScript
