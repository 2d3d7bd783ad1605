import PullScript.Eval.Cutting

namespace PullScript

open Act

/-- A list known up front, the state being the position of the item in front. -/
def answerItems (items : List Value) : (ask : ListAsk) → Act Nat ask.Reply
  | .current => do
    match items[← look]? with
    | some item => return item.copy
    | none => fail (.runtime .pastEnd)
  | .advance => change fun position => if items[position]?.isSome then position + 1 else position
  | .ended => return items[← look]?.isNone
  | .rewind => put 0
  | .count => return items.length

/-- A list whose items are coerced to the element types of `ty` in turn, the state being the list
itself and the position of the item in front. -/
def answerRecast (p : Puller) (ty : Ty) : (ask : ListAsk) → Act (Value × Nat) ask.Reply
  | .current => do
    let item ← onFirst p.current
    match ty.elements[(← look).2 % ty.elements.length]? with
    | some target => coerce p item target
    | none => return item
  | .advance => do
    onFirst p.advance
    change fun (source, position) => (source, position + 1)
  | .ended => onFirst p.listEnded
  | .rewind => do
    onFirst p.rewind
    change fun (source, _) => (source, 0)
  | .count => onFirst p.count

def answerMap (p : Puller) : (ask : ListAsk) → Act Bound ask.Reply
  | .current => do
    let item ← Bound.on 1 p.current
    Bound.applyArg p 0 item
  | .advance => Bound.on 1 p.advance
  | .ended => Bound.on 1 p.listEnded
  | .rewind => Bound.on 1 p.rewind
  | .count => Bound.on 1 p.count

def answerRepeat (p : Puller) : (ask : ListAsk) → Act Bound ask.Reply
  | .current => return (← Bound.arg 0).copy
  | .advance => return ()
  | .ended => return false
  | .rewind => return ()
  | .count => countBySteps p.fuel (return ()) (return false) (return ())

namespace ZipWith

def advance (p : Puller) : Act Bound Unit := do
  Bound.on 1 p.advance
  Bound.on 2 p.advance

def ended (p : Puller) : Act Bound Bool := do
  if ← Bound.on 1 p.listEnded then return true else Bound.on 2 p.listEnded

def rewind (p : Puller) : Act Bound Unit := do
  Bound.on 1 p.rewind
  Bound.on 2 p.rewind

/-- A function of two arguments applied to the items of two lists side by side. -/
def answer (p : Puller) : (ask : ListAsk) → Act Bound ask.Reply
  | .current => do
    let left ← Bound.on 1 p.current
    let right ← holding [left] (Bound.on 2 p.current)
    let half ← holding [right] (Bound.applyArg p 0 left)
    let (result, _) ← aside half (p.apply right)
    return result
  | .advance => advance p
  | .ended => ended p
  | .rewind => rewind p
  | .count => countBySteps p.fuel (rewind p) (ended p) (advance p)

end ZipWith

/-- The integer part of a number as a count. Negative numbers and what is no number count as
zero. -/
def countOf (n : Float) : Nat :=
  n.toUInt64.toNat

def countArg (p : Puller) (k : Nat) : Act Bound Nat :=
  return countOf (← Bound.on k p.number)

namespace Take

/-- The number of items to take, read when it is first needed. -/
def readLimit (p : Puller) : Act (Bound × Take) Nat := do
  match (← look).2.limit with
  | some limit => return limit
  | none =>
    let limit ← onFirst (countArg p 0)
    change fun (b, state) => (b, { state with limit := some limit })
    return limit

def ended (p : Puller) : Act (Bound × Take) Bool := do
  let limit ← readLimit p
  if limit ≤ (← look).2.position then return true else onFirst (Bound.on 1 p.listEnded)

def advance (p : Puller) : Act (Bound × Take) Unit := do
  onFirst (Bound.on 1 p.advance)
  change fun (b, state) => (b, { state with position := state.position + 1 })

def rewind (p : Puller) : Act (Bound × Take) Unit := do
  onFirst (Bound.on 1 p.rewind)
  change fun (b, state) => (b, { state with position := 0 })

def answer (p : Puller) : (ask : ListAsk) → Act (Bound × Take) ask.Reply
  | .current => do
    if ← ended p then fail (.runtime .pastEnd) else onFirst (Bound.on 1 p.current)
  | .advance => advance p
  | .ended => ended p
  | .rewind => rewind p
  | .count => countBySteps p.fuel (rewind p) (ended p) (advance p)

end Take

namespace Drop

/-- Works on the second argument after the items to drop have been stepped over, which is done
once. -/
def after {α : Type} (p : Puller) (act : Act Value α) : Act (Bound × Bool) α := do
  if !(← look).2 then
    let n ← onFirst (countArg p 0)
    onFirst (Bound.on 1 (skipItems p n))
    change fun (b, _) => (b, true)
  onFirst (Bound.on 1 act)

def rewind (p : Puller) : Act (Bound × Bool) Unit := do
  onFirst (Bound.on 1 p.rewind)
  change fun (b, _) => (b, false)

def answer (p : Puller) : (ask : ListAsk) → Act (Bound × Bool) ask.Reply
  | .current => after p p.current
  | .advance => after p p.advance
  | .ended => after p p.listEnded
  | .rewind => rewind p
  | .count => countBySteps p.fuel (rewind p) (after p p.listEnded) (after p p.advance)

end Drop

namespace Tail

/-- Works on the argument after its first item has been stepped over, which is done once. -/
def after {α : Type} (p : Puller) (act : Act Value α) : Act (Bound × Bool) α := do
  if !(← look).2 then
    onFirst (Bound.on 0 do
      if ← p.listEnded then fail (.runtime .tailOfEmpty)
      p.advance)
    change fun (b, _) => (b, true)
  onFirst (Bound.on 0 act)

def rewind (p : Puller) : Act (Bound × Bool) Unit := do
  onFirst (Bound.on 0 p.rewind)
  change fun (b, _) => (b, false)

def answer (p : Puller) : (ask : ListAsk) → Act (Bound × Bool) ask.Reply
  | .current => after p p.current
  | .advance => after p p.advance
  | .ended => after p p.listEnded
  | .rewind => rewind p
  | .count => countBySteps p.fuel (rewind p) (after p p.listEnded) (after p p.advance)

end Tail

namespace Init

def start (p : Puller) : Act (Bound × Init Value) Unit := do
  if !(← look).2.started then
    match ← onFirst (Bound.on 0 p.next) with
    | some first => change fun (b, _) => (b, { held := some first, started := true })
    | none => fail (.runtime .initOfEmpty)

def ended (p : Puller) : Act (Bound × Init Value) Bool := do
  start p
  if (← look).2.held.isNone then return true else onFirst (Bound.on 0 p.listEnded)

def advance (p : Puller) : Act (Bound × Init Value) Unit := do
  start p
  let held ← onFirst (Bound.on 0 p.next)
  change fun (b, state) => (b, { state with held })

def rewind (p : Puller) : Act (Bound × Init Value) Unit := do
  onFirst (Bound.on 0 p.rewind)
  change fun (b, _) => (b, {})

def answer (p : Puller) : (ask : ListAsk) → Act (Bound × Init Value) ask.Reply
  | .current => do
    if ← ended p then fail (.runtime .pastEnd)
    match (← look).2.held with
    | some item => return item.copy
    | none => fail (.runtime .pastEnd)
  | .advance => advance p
  | .ended => ended p
  | .rewind => rewind p
  | .count => countBySteps p.fuel (rewind p) (ended p) (advance p)

end Init

namespace Reverse

/-- The items in reverse order, gathered when they are first needed. -/
def collect (p : Puller) : Act (Bound × Reverse Value) (List Value) := do
  match (← look).2.items with
  | some items => return items
  | none =>
    let items ← onFirst (Bound.on 0 (drainItems p))
    change fun (b, state) => (b, { state with items := some items })
    return items

def answer (p : Puller) : (ask : ListAsk) → Act (Bound × Reverse Value) ask.Reply
  | .current => do
    let items ← collect p
    match items[(← look).2.position]? with
    | some item => return item.copy
    | none => fail (.runtime .pastEnd)
  | .advance => change fun (b, state) => (b, { state with position := state.position + 1 })
  | .ended => do
    let items ← collect p
    return items[(← look).2.position]?.isNone
  | .rewind => change fun (b, state) => (b, { state with position := 0 })
  | .count => return (← collect p).length

end Reverse

end PullScript
