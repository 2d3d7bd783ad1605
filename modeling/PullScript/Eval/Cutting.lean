import PullScript.Eval.Bound

namespace PullScript

open Act

/-- Streams more of a text to the end of a buffer. -/
def streamMore (p : Puller) : Act (Bytes × Value) Unit :=
  gather p.stream

namespace Cutter

def onPending {α : Type} (act : Act (Bytes × Value) α) : Act (Cutter × Value) α := do
  let (cutter, source) ← look
  within (cutter.pending, source) (fun (pending, source) => ({ cutter with pending }, source)) act

/-- Streams until the unit in front is settled or the text has ended. -/
def settle (p : Puller) (unit : TextUnit) : Act (Cutter × Value) Unit :=
  loop (fun () => do
    let pending := (← look).1.pending
    if !pending.isEmpty && (unit.front pending).settled then return .inr ()
    if ← onSecond p.textEnded then return .inr ()
    onPending (streamMore p)
    return .inl ()) p.fuel ()

/-- The next unit of the text; nothing at its end. A byte that belongs to no character is a unit. -/
def next (p : Puller) (unit : TextUnit) : Act (Cutter × Value) (Option Bytes) := do
  settle p unit
  let pending := (← look).1.pending
  if pending.isEmpty then return none
  let size := max (unit.front pending).size 1
  change fun (cutter, source) => ({ cutter with pending := pending.drop size }, source)
  return some (pending.take size)

def fetch (p : Puller) (unit : TextUnit) : Act (Cutter × Value) Unit := do
  let (cutter, _) ← look
  if cutter.current.isNone && !cutter.done then
    let current ← next p unit
    change fun (cutter, source) => ({ cutter with current, done := current.isNone }, source)

def inFront (p : Puller) (unit : TextUnit) : Act (Cutter × Value) Bytes := do
  fetch p unit
  match (← look).1.current with
  | some bytes => return bytes
  | none => fail (.runtime .pastEnd)

def advance (p : Puller) (unit : TextUnit) : Act (Cutter × Value) Unit := do
  fetch p unit
  change fun (cutter, source) => ({ cutter with current := none }, source)

def ended (p : Puller) (unit : TextUnit) : Act (Cutter × Value) Bool := do
  fetch p unit
  return (← look).1.current.isNone

/-- A unit as an item of a list: the number of a code point, or the text of a grapheme cluster. -/
def item (unit : TextUnit) (bytes : Bytes) : Value :=
  match unit with
  | .codePoint =>
    match Utf8.front bytes with
    | .char c => .number (Float.ofNat c.toNat)
    | _ => .number (Float.ofNat Utf8.replacement.toNat)
  | .grapheme => .textOf bytes

def answer (p : Puller) (ty : Ty) (unit : TextUnit) :
    (ask : ListAsk) → Act (Cutter × Value) ask.Reply
  | .current => return item unit (← inFront p unit)
  | .advance => advance p unit
  | .ended => ended p unit
  | .rewind => fail (.noRewind ty)
  | .count => fail (.noRewind ty)

end Cutter

def answerUnits (p : Puller) (unit : TextUnit) (ask : ListAsk) :
    Act (Bound × Cutter) ask.Reply := do
  let source ← onFirst (Bound.arg 0)
  let (b, cutter) ← look
  within (cutter, source)
    (fun (cutter, source) => ({ b with args := b.args.set 0 source }, cutter))
    (Cutter.answer p b.ty unit ask)

namespace ByteList

/-- Streams chunks until a byte is ahead or the text has ended. -/
def fill (p : Puller) : Act (Bound × Bytes) Unit :=
  loop (fun () => do
    if !(← look).2.isEmpty then return .inr ()
    if ← onFirst (Bound.on 0 p.textEnded) then return .inr ()
    let (b, _) ← look
    let source ← onFirst (Bound.arg 0)
    within ([], source) (fun (ahead, source) => ({ b with args := b.args.set 0 source }, ahead))
      (streamMore p)
    return .inl ()) p.fuel ()

/-- The bytes of the first argument, the state being the bytes of its last chunk that are still
ahead. -/
def answer (p : Puller) : (ask : ListAsk) → Act (Bound × Bytes) ask.Reply
  | .current => do
    fill p
    match (← look).2 with
    | byte :: _ => return .number (Float.ofNat byte.toNat)
    | [] => fail (.runtime .pastEnd)
  | .advance => do
    fill p
    change fun (b, ahead) => (b, ahead.tail)
  | .ended => do
    fill p
    return (← look).2.isEmpty
  | .rewind => do fail (.noRewind (← look).1.ty)
  | .count => do fail (.noRewind (← look).1.ty)

end ByteList

namespace Splitter

/-- The separator, the first argument, read when it is first needed. -/
def readSeparator (p : Puller) : Act (Bound × Splitter) Bytes := do
  match (← look).2.separator with
  | some separator => return separator
  | none =>
    let separator ← onFirst (Bound.on 0 (readAll p))
    change fun (b, splitter) => (b, { splitter with separator := some separator })
    return separator

/-- Streams until the pending bytes hold a separator or the text has ended, and makes what stands
before it the piece in front. -/
def cutPiece (p : Puller) (separator : Bytes) : Act (Bound × Splitter) Unit :=
  loop (fun () => do
    let (b, splitter) ← look
    match Bytes.find? separator splitter.pending with
    | some size =>
      put (b, { splitter with
        current := some (splitter.pending.take size)
        pending := splitter.pending.drop (size + separator.length) })
      return .inr ()
    | none =>
      if ← onFirst (Bound.on 1 p.textEnded) then
        change fun (b, splitter) =>
          (b, { splitter with current := some splitter.pending, pending := [], done := true })
        return .inr ()
      let (b, splitter) ← look
      let source ← onFirst (Bound.arg 1)
      within (splitter.pending, source)
        (fun (pending, source) =>
          ({ b with args := b.args.set 1 source }, { splitter with pending }))
        (streamMore p)
      return .inl ()) p.fuel ()

/-- Makes the piece in front known. With an empty separator there is always one more empty piece. -/
def fetch (p : Puller) : Act (Bound × Splitter) Unit := do
  let (_, splitter) ← look
  if splitter.current.isNone && !splitter.done then
    let separator ← readSeparator p
    if separator.isEmpty then
      change fun (b, splitter) => (b, { splitter with current := some [] })
    else cutPiece p separator

/-- The pieces of the second argument between occurrences of the first. -/
def answer (p : Puller) : (ask : ListAsk) → Act (Bound × Splitter) ask.Reply
  | .current => do
    fetch p
    match (← look).2.current with
    | some piece => return .textOf piece
    | none => fail (.runtime .pastEnd)
  | .advance => do
    fetch p
    change fun (b, splitter) => (b, { splitter with current := none })
  | .ended => do
    fetch p
    return (← look).2.current.isNone
  | .rewind => do fail (.noRewind (← look).1.ty)
  | .count => do fail (.noRewind (← look).1.ty)

end Splitter

end PullScript
