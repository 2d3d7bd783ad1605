import PullScript.Eval.Act
import PullScript.Value.Basic

namespace PullScript

inductive TextAsk where
  /-- Write the next bytes; nothing may be left to write. -/
  | stream
  /-- Has everything been streamed? -/
  | ended
  /-- Write everything that is left. -/
  | drain
  /-- Hand out the number that this text is made from, if there is one. -/
  | takeNumber
deriving DecidableEq, Repr

@[reducible]
def TextAsk.Reply : TextAsk → Type
  | stream => Unit
  | ended => Bool
  | drain => Unit
  | takeNumber => Option Value.Numeric

inductive ListAsk where
  /-- The item in front. -/
  | current
  /-- Step over the item in front. -/
  | advance
  /-- Are there no more items? -/
  | ended
  /-- Go back to the first item. -/
  | rewind
  /-- The number of items; the list is rewound. -/
  | count
deriving DecidableEq, Repr

@[reducible]
def ListAsk.Reply : ListAsk → Type
  | current => Value
  | advance => Unit
  | ended => Bool
  | rewind => Unit
  | count => Nat

inductive Ask where
  /-- The number that a number is. -/
  | number
  | text (ask : TextAsk)
  | list (ask : ListAsk)
  /-- The result of applying a function to an argument. -/
  | apply (arg : Value)

@[reducible]
def Ask.Reply : Ask → Type
  | number => Float
  | text ask => ask.Reply
  | list ask => ask.Reply
  | apply _ => Value

def Ask.kind : Ask → Kind
  | number => .num
  | text _ => .str
  | list _ => .lst
  | apply _ => .fn

/-- The type that is reported missing when a question is put to a value of another kind. -/
def Ask.wantedTy : Ask → Ty
  | apply arg => .arrow arg.ty (.unknown "b")
  | ask => ask.kind.anyTy

structure Puller where
  fuel : Nat
  pull : (ask : Ask) → Act Value ask.Reply

namespace Puller

variable (p : Puller)

def number : Act Value Float := p.pull .number

def stream : Act Value Unit := p.pull (.text .stream)

def textEnded : Act Value Bool := p.pull (.text .ended)

def drain : Act Value Unit := p.pull (.text .drain)

def takeNumber : Act Value (Option Value.Numeric) := p.pull (.text .takeNumber)

def current : Act Value Value := p.pull (.list .current)

def advance : Act Value Unit := p.pull (.list .advance)

def listEnded : Act Value Bool := p.pull (.list .ended)

def rewind : Act Value Unit := p.pull (.list .rewind)

def count : Act Value Nat := p.pull (.list .count)

def apply (arg : Value) : Act Value Value := p.pull (.apply arg)

/-- The item in front, stepping over it; nothing at the end. -/
def next : Act Value (Option Value) := do
  if ← p.listEnded then return none
  let item ← p.current
  Act.holding [item] p.advance
  return some item

end Puller

open Act

def requireKind (kind : Kind) : Act Value Unit := do
  let value ← look
  if value.kind = kind then return () else fail (.typeMismatch value.ty kind.anyTy)

def readAll (p : Puller) : Act Value Bytes :=
  gathered p.drain

/-- Streams a text while `more` says that the bytes so far are not enough. -/
def readWhile (p : Puller) (more : Bytes → Bool) : Act Value Bytes := do
  requireKind .str
  loop (fun buffer => do
    if !more buffer then return .inr buffer
    if ← p.textEnded then return .inr buffer
    return .inl (buffer ++ (← gathered p.stream))) p.fuel []

def skipItems (p : Puller) (n : Nat) : Act Value Unit := do
  requireKind .lst
  loop (fun left => do
    if left = 0 then return .inr ()
    if ← p.listEnded then return .inr ()
    p.advance
    return .inl (left - 1)) p.fuel n

/-- The items of a list from the one in front on, latest first. -/
def drainItems (p : Puller) : Act Value (List Value) := do
  requireKind .lst
  loop (fun items => do
    match ← holding items p.next with
    | some item => return .inl (item :: items)
    | none => return .inr items) p.fuel []

/-- Counts the items of a list by stepping over all of them, and goes back to the first one before
and after. -/
def countBySteps {σ : Type} (fuel : Nat) (rewind : Act σ Unit) (ended : Act σ Bool)
    (advance : Act σ Unit) : Act σ Nat := do
  rewind
  let n ← loop (fun n => do
    if ← ended then return .inr n
    advance
    return .inl (n + 1)) fuel 0
  rewind
  return n

def drainBySteps {σ : Type} (fuel : Nat) (ended : Act σ Bool) (stream : Act σ Unit) : Act σ Unit :=
  loop (fun () => do
    if ← ended then return .inr ()
    stream
    return .inl ()) fuel ()

end PullScript
