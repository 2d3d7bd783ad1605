import PullScript.Error
import PullScript.Value.Holder
import PullScript.World.Basic

namespace PullScript

inductive Stop where
  | failed (error : Error)
  | outOfFuel

abbrev Act (σ α : Type) : Type :=
  EStateM Stop (σ × World) α

namespace Act

variable {σ τ α β : Type}

def fail (error : Error) : Act σ α :=
  throw (.failed error)

def outOfFuel : Act σ α :=
  throw .outOfFuel

def look : Act σ σ :=
  return (← get).1

def put (s : σ) : Act σ Unit :=
  modify fun (_, w) => (s, w)

def change (f : σ → σ) : Act σ Unit :=
  modify fun (s, w) => (f s, w)

def world (f : World → α) : Act σ α :=
  return f (← get).2

def changeWorld (f : World → World) : Act σ Unit :=
  modify fun (s, w) => (s, f w)

/-- Does work while values are held that are no part of the state. -/
def holding (values : List Value) (act : Act σ α) : Act σ α := fun (s, w) =>
  match act (s, { w with around := values :: w.around }) with
  | .ok a (s, w₁) => .ok a (s, { w₁ with around := w.around })
  | .error stop (s, w₁) => .error stop (s, { w₁ with around := w.around })

/-- Works on a part of the state, `rebuild` being the state around that part, which has no other
values to hold. -/
def zoom (part : τ) (rebuild : τ → σ) (act : Act τ α) : Act σ α := fun (_, w) =>
  match act (part, w) with
  | .ok a (part, w) => .ok a (rebuild part, w)
  | .error stop (part, w) => .error stop (rebuild part, w)

/-- Works on a part of the state, `rebuild` being the state around that part. What else is in the
state is held meanwhile: it is what the state with a blank part holds. -/
def within [Holder σ] [Inhabited τ] (part : τ) (rebuild : τ → σ) (act : Act τ α) : Act σ α :=
  zoom part rebuild (holding (held (rebuild default)) act)

/-- Works on something that is no part of the state, and gives what has become of it. The state is
held meanwhile. -/
def aside [Holder σ] (other : τ) (act : Act τ α) : Act σ (α × τ) := fun (s, w) =>
  match holding (held s) act (other, w) with
  | .ok a (other, w) => .ok (a, other) (s, w)
  | .error stop (_, w) => .error stop (s, w)

def onFirst [Holder σ] [Holder τ] [Inhabited σ] (act : Act σ α) : Act (σ × τ) α := do
  let (s, t) ← look
  within s (fun s => (s, t)) act

def onSecond [Holder σ] [Holder τ] [Inhabited τ] (act : Act τ α) : Act (σ × τ) α := do
  let (s, t) ← look
  within t (fun t => (s, t)) act

def ofExcept (result : Except Error α) : Act σ α :=
  match result with
  | .ok a => pure a
  | .error error => fail error

/-- The answer of a computation that may go on for ever. -/
def ofOption (result : Option α) : Act σ α :=
  match result with
  | some a => pure a
  | none => outOfFuel

/-- Repeats `body` until it gives an answer on the right, handing on what it gives on the left, at
most `fuel` times. -/
def loop (body : β → Act σ (β ⊕ α)) : Nat → β → Act σ α
  | 0, _ => outOfFuel
  | fuel + 1, b => do
    match ← body b with
    | .inl b => loop body fuel b
    | .inr a => return a

/-- Writes bytes to where streamed bytes go. A full sink keeps what fits and fails. -/
def write (bytes : Bytes) : Act σ Unit := fun (s, w) =>
  match w.out.write bytes with
  | (out, true) => .ok () (s, { w with out })
  | (out, false) => .error (.failed (.io "sink full")) (s, { w with out })

/-- Does work whose streamed bytes go to the end of a buffer, also when it fails. -/
def gather (act : Act σ α) : Act (Bytes × σ) α := fun ((buffer, s), w) =>
  match act (s, { w with out := {} }) with
  | .ok a (s, w₁) => .ok a ((buffer ++ w₁.out.bytes, s), { w₁ with out := w.out })
  | .error stop (s, w₁) => .error stop ((buffer ++ w₁.out.bytes, s), { w₁ with out := w.out })

def gathered (act : Act σ Unit) : Act σ Bytes := fun (s, w) =>
  match act (s, { w with out := {} }) with
  | .ok () (s, w₁) => .ok w₁.out.bytes (s, { w₁ with out := w.out })
  | .error stop (s, w₁) => .error stop (s, { w₁ with out := w.out })

/-- Does work and gives what it ended with, whatever that is. -/
def attempt (act : Act σ α) : Act σ (Except Stop α) := fun s =>
  match act s with
  | .ok a s => .ok (.ok a) s
  | .error stop s => .ok (.error stop) s

/-- Does work whose streamed bytes go to a sink of its own, and gives the bytes that the sink kept
and what stopped the work, if anything did. -/
def capture (sink : Sink) (act : Act σ Unit) : Act σ (Bytes × Option Stop) := fun (s, w) =>
  match act (s, { w with out := sink }) with
  | .ok () (s, w₁) => .ok (w₁.out.bytes, none) (s, { w₁ with out := w.out })
  | .error stop (s, w₁) => .ok (w₁.out.bytes, some stop) (s, { w₁ with out := w.out })

/-- Does work whose streamed bytes go to one of the sinks. -/
def intoSink (sink : Nat) (act : Act σ α) : Act σ α := fun (s, w) =>
  let settle (w₁ : World) : World :=
    { w₁ with out := w.out, sinks := w₁.sinks.setIfInBounds sink w₁.out }
  match act (s, { w with out := w.sinks.getD sink {} }) with
  | .ok a (s, w₁) => .ok a (s, settle w₁)
  | .error stop (s, w₁) => .error stop (s, settle w₁)

def openTap (reads : List Read) : Act σ Nat := do
  let tap ← world (·.taps.size)
  changeWorld fun w => { w with taps := w.taps.push { reads } }
  return tap

def openSink (sink : Sink) : Act σ Nat := do
  let k ← world (·.sinks.size)
  changeWorld fun w => { w with sinks := w.sinks.push sink }
  return k

def addMeter (meter : Meter) : Act σ Nat := do
  let k ← world (·.meters.size)
  changeWorld fun w => { w with meters := w.meters.push meter }
  return k

def readMeter (meter : Nat) : Act σ Float := do
  let m ← world fun w => w.meters.getD meter { n := 0 }
  let read := { m with reads := m.reads + 1 }
  changeWorld fun w => { w with meters := w.meters.setIfInBounds meter read }
  match m.failure with
  | some message => fail (.runtime (.unreadable message))
  | none => return m.n

/-- Asks the reader behind a tap if a copy of the input at `offset` needs it, and gives the tap. -/
def fillTap (tap offset : Nat) : Act σ Tap := do
  match ← world fun w => (w.taps.getD tap { reads := [] }).fillFor offset with
  | (t, message) =>
    changeWorld fun w => { w with taps := w.taps.setIfInBounds tap t }
    match message with
    | some message => fail (.io message)
    | none => return t

/-- Streams what a copy of an input at `offset` has ahead, and gives its new offset. The tap then
keeps no more than what the values held around have ahead; this copy has nothing ahead. -/
def streamTap (tap offset : Nat) : Act σ Nat := do
  let t ← fillTap tap offset
  write (t.after offset)
  let oldest ← world fun w => (w.offsetsAround tap).foldl min t.upto
  changeWorld fun w => { w with taps := w.taps.setIfInBounds tap (t.trim oldest) }
  return t.upto

end Act

end PullScript
