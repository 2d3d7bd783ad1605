import PullScript.Eval.Numbers

namespace PullScript

open Act

variable {σ : Type}

namespace Once

variable [Holder σ] [Inhabited σ]

/-- The bytes of a text that is written at once, made by `produce` when they are first needed. -/
def bytes (produce : Act σ Bytes) : Act (σ × Once) Bytes := do
  match (← look).2.known with
  | some bytes => return bytes
  | none =>
    let bytes ← onFirst produce
    change fun (s, once) => (s, { once with known := some bytes })
    return bytes

def serve (produce : Act σ Bytes) : Act (σ × Once) Unit := do
  write (← bytes produce)
  change fun (s, once) => (s, { once with served := true })

/-- A text that is written at once is streamed once and drained as often as asked. -/
def answer (produce : Act σ Bytes) (takeNumber : Act σ (Option Value.Numeric)) :
    (ask : TextAsk) → Act (σ × Once) ask.Reply
  | .stream => do if (← look).2.served then return () else serve produce
  | .ended => return (← look).2.served
  | .drain => serve produce
  | .takeNumber => onFirst takeNumber

end Once

/-- A text known up front, the state being whether it has been streamed. -/
def answerLiteral (bytes : Bytes) : (ask : TextAsk) → Act Bool ask.Reply
  | .stream => do
    if ← look then return ()
    write bytes
    put true
  | .ended => look
  | .drain => do
    write bytes
    put true
  | .takeNumber => return none

/-- A text known up front in chunks, the state being how many have been streamed. -/
def answerChunks (fuel : Nat) (parts : List Bytes) : (ask : TextAsk) → Act Nat ask.Reply
  | .stream => stream
  | .ended => ended
  | .drain => drainBySteps fuel ended stream
  | .takeNumber => return none
where
  ended : Act Nat Bool := return parts.length ≤ (← look)
  stream : Act Nat Unit := do
    match parts[← look]? with
    | some part =>
      write part
      change (· + 1)
    | none => return ()

def answerInput (fuel : Nat) (tap : Nat) : (ask : TextAsk) → Act Nat ask.Reply
  | .stream => stream
  | .ended => ended
  | .drain => drainBySteps fuel ended stream
  | .takeNumber => return none
where
  ended : Act Nat Bool := do
    let offset ← look
    return (← fillTap tap offset).atEnd offset
  stream : Act Nat Unit := do
    put (← streamTap tap (← look))

/-- The text of a number, made when it is first needed unless the number has been taken away. -/
def numberBytes (p : Puller) : Act (Option Value) Bytes := do
  match ← look with
  | some source => return Bytes.ofString (Number.toText (← within source some p.number))
  | none => fail (.runtime .numberTaken)

def answerNumberText (p : Puller) : (ask : TextAsk) → Act (Option Value × Once) ask.Reply :=
  Once.answer (numberBytes p) do
    let source ← look
    put none
    return source.bind Value.asNumeric?

namespace Joiner

/-- Whether the item that was begun has more to stream. -/
def itemGoesOn (p : Puller) : Act (Joiner Value × Value) Bool := do
  match ← look with
  | ({ item := none, .. }, _) => return false
  | (joiner@{ item := some item, .. }, source) =>
    return !(← within item (fun item => ({ joiner with item := some item }, source)) p.textEnded)

def streamItem (p : Puller) : Act (Joiner Value × Value) Unit := do
  match ← look with
  | ({ item := none, .. }, _) => return ()
  | (joiner@{ item := some item, .. }, source) =>
    within item (fun item => ({ joiner with item := some item }, source)) p.stream

/-- Begins the next item of the list, with a separator before it unless it is the first. -/
def streamNext (p : Puller) : Act (Joiner Value × Value) Unit := do
  change fun (joiner, source) => ({ joiner with item := none }, source)
  match ← onSecond p.next with
  | none => return ()
  | some item =>
    let (joiner, _) ← look
    if joiner.started then write joiner.separator
    change fun (joiner, source) => ({ joiner with started := true }, source)
    let text ← coerce p item (.str false)
    let ((), text) ← aside text p.stream
    change fun (joiner, source) => ({ joiner with item := some text }, source)

def stream (p : Puller) : Act (Joiner Value × Value) Unit := do
  if ← itemGoesOn p then streamItem p else streamNext p

/-- The text has ended when the item that was begun and the list have. -/
def ended (p : Puller) : Act (Joiner Value × Value) Bool := do
  if ← itemGoesOn p then return false else onSecond p.listEnded

def answer (p : Puller) : (ask : TextAsk) → Act (Joiner Value × Value) ask.Reply
  | .stream => stream p
  | .ended => ended p
  | .drain => drainBySteps p.fuel (ended p) (stream p)
  | .takeNumber => return none

end Joiner

/-- The numbers of a list put together to a text, one number at a time. -/
def answerEncoding (p : Puller) (e : Encoding) : (ask : TextAsk) → Act Bound ask.Reply
  | .stream => stream
  | .ended => ended
  | .drain => drainBySteps p.fuel ended stream
  | .takeNumber => return none
where
  ended : Act Bound Bool := Bound.on 0 p.listEnded
  stream : Act Bound Unit := do
    match ← Bound.on 0 p.next with
    | none => return ()
    | some item =>
      let (n, _) ← aside item p.number
      write (e.bytes n)

namespace Concat

/-- Steps over the texts that have ended, `rest` being those not stepped over yet. -/
def skipEnded (p : Puller) : List Nat → Act (Bound × Concat) Unit
  | [] => return ()
  | k :: rest => do
    if ← onFirst (Bound.on k p.textEnded) then
      change fun (b, state) => (b, { state with rest })
      skipEnded p rest
    else return ()

def stream (p : Puller) : Act (Bound × Concat) Unit := do
  skipEnded p (← look).2.rest
  match (← look).2.rest with
  | [] => return ()
  | k :: _ => onFirst (Bound.on k p.stream)

def ended (p : Puller) : Act (Bound × Concat) Bool := do
  skipEnded p (← look).2.rest
  return (← look).2.rest.isEmpty

def answer (p : Puller) : (ask : TextAsk) → Act (Bound × Concat) ask.Reply
  | .stream => stream p
  | .ended => ended p
  | .drain => drainBySteps p.fuel (ended p) (stream p)
  | .takeNumber => return none

end Concat

namespace Joiner

/-- Works on a joiner for the second argument; its separator, the first argument, is read when it is
first needed. -/
def ofArgs {α : Type} (p : Puller) (act : Act (Joiner Value × Value) α) :
    Act (Bound × Option (Joiner Value)) α := do
  if (← look).2.isNone then
    let separator ← onFirst (Bound.on 0 (readAll p))
    change fun (b, _) => (b, some { separator })
  let source ← onFirst (Bound.arg 1)
  let (b, joiner) ← look
  within (joiner.getD { separator := [] }, source)
    (fun (joiner, source) => ({ b with args := b.args.set 1 source }, some joiner)) act

/-- The items of the second argument with the first one between them. -/
def answerJoin (p : Puller) : (ask : TextAsk) → Act (Bound × Option (Joiner Value)) ask.Reply
  | .stream => ofArgs p (stream p)
  | .ended => ofArgs p (ended p)
  | .drain => drainBySteps p.fuel (ofArgs p (ended p)) (ofArgs p (stream p))
  | .takeNumber => return none

end Joiner

end PullScript
