import Mathlib.Logic.Function.Basic
import PullScript.Eval.Pull
import PullScript.Proofs.View.Basic

namespace PullScript

/-- The bytes that a reader hands out until it ends, or fails with a message. -/
structure Stock where
  bytes : Bytes
  broken : Option String

/-- What the reader of each tap hands out. -/
abbrev Feed := Nat → Stock

/-- How many bytes each tap has read. -/
abbrev Reach := Nat → Nat

namespace View

def pastEnd {α : Type} : View α :=
  fail (.runtime .pastEnd)

def arg (b : Bound) (k : Nat) : View Value :=
  getOr (.runtime (.missingArgument b.name (k + 1))) b.args[k]?

def expectKind (value : Value) (kind : Kind) : View Unit :=
  require (value.kind = kind) (.typeMismatch value.ty kind.anyTy)

end View

/-- A text as it is seen: whether a place is behind the last chunk, and the chunk at a place. -/
structure TextView where
  ended : Nat → View Bool
  chunk : Nat → View Bytes

namespace TextView

def of (value : Value) : TextView where
  ended i := .ask value (.textEnded i)
  chunk i := .ask value (.chunk i)

def after {α : Type} (first : View α) (text : α → TextView) : TextView where
  ended i := do (text (← first)).ended i
  chunk i := do (text (← first)).chunk i

def arg (b : Bound) (k : Nat) : TextView :=
  .after (.arg b k) .of

def next (t : TextView) (i : Nat) : View (Option Bytes) := do
  if ← t.ended i then return none else return some (← t.chunk i)

def once (bytes : View Bytes) : TextView where
  ended i := return 0 < i
  chunk i := if i = 0 then bytes else .pastEnd

def ofParts (parts : List Bytes) : TextView where
  ended i := return parts.length ≤ i
  chunk i := .getOr (.runtime .pastEnd) parts[i]?

def ofStock (stock : Stock) : TextView where
  ended i :=
    if i < stock.bytes.length then return false else
      match stock.broken with
      | some message => .fail (.io message)
      | none => return true
  chunk i := .getOr (.runtime .pastEnd) (stock.bytes[i]?.map ([·]))

/-- One round of reading: the bytes so far are enough, or the text has ended, or there is more. -/
def readRound (t : TextView) (enough : Bytes → Bool) : Nat × Bytes → View ((Nat × Bytes) ⊕ Bytes) :=
  fun (i, soFar) => do
    if enough soFar then return .inr soFar
    match ← t.next i with
    | none => return .inr soFar
    | some chunk => return .inl (i + 1, soFar ++ chunk)

def readUntil (t : TextView) (enough : Bytes → Bool) : View Bytes :=
  View.loop (t.readRound enough) (0, [])

def whole (t : TextView) : View Bytes :=
  t.readUntil fun _ => false

end TextView

/-- A list as it is seen: whether a place is behind the last item, the item at a place, and whether a
place can be stepped over. -/
structure ListView where
  ended : Nat → View Bool
  item : Nat → View Value
  step : Nat → View Unit

namespace ListView

def of (value : Value) : ListView where
  ended k := .ask value (.listEnded k)
  item k := .ask value (.item k)
  step k := .ask value (.step k)

def after {α : Type} (first : View α) (list : α → ListView) : ListView where
  ended k := do (list (← first)).ended k
  item k := do (list (← first)).item k
  step k := do (list (← first)).step k

def arg (b : Bound) (k : Nat) : ListView :=
  .after (.arg b k) .of

def next (l : ListView) (k : Nat) : View (Option Value) := do
  if ← l.ended k then return none
  let item ← l.item k
  l.step k
  return some item

def skip (l : ListView) (n : Nat) : View Nat :=
  View.loop (fun (left, k) => do
    if left = 0 then return .inr k
    if ← l.ended k then return .inr k
    l.step k
    return .inl (left - 1, k + 1)) (n, 0)

def gather (l : ListView) : View (List Value) :=
  View.loop (fun (k, items) => do
    match ← l.next k with
    | some item => return .inl (k + 1, item :: items)
    | none => return .inr items) (0, [])

def last (l : ListView) : View (Option Value) :=
  View.loop (fun (k, item) => do
    match ← l.next k with
    | some item => return .inl (k + 1, some item)
    | none => return .inr item) (0, none)

def ofItems (items : List Value) : ListView where
  ended k := return items[k]?.isNone
  item k := .getOr (.runtime .pastEnd) (items[k]?.map Value.copy)
  step _ := return ()

def endless (value : View Value) : ListView where
  ended _ := return false
  item _ := return (← value).copy
  step _ := return ()

def mapped (l : ListView) (change : Nat → Value → View Value) : ListView where
  ended := l.ended
  item k := do change k (← l.item k)
  step := l.step

def zipped (left right : ListView) (combine : Value → Value → View Value) : ListView where
  ended k := do if ← left.ended k then return true else right.ended k
  item k := do
    let x ← left.item k
    let y ← right.item k
    combine x y
  step k := do
    left.step k
    right.step k

def taken (l : ListView) (limit : View Nat) : ListView :=
  let ended (k : Nat) : View Bool := do
    if (← limit) ≤ k then return true else l.ended k
  { ended
    item := fun k => do if ← ended k then .pastEnd else l.item k
    step := l.step }

def shifted (l : ListView) (start : View Nat) : ListView where
  ended k := do l.ended ((← start) + k)
  item k := do l.item ((← start) + k)
  step k := do l.step ((← start) + k)

def second (l : ListView) : View Nat := do
  if ← l.ended 0 then .fail (.runtime .tailOfEmpty)
  l.step 0
  return 1

/-- The item that is held back at a place of a list without its last item, and the place of the list
that is next to be looked at. -/
def heldBack (l : ListView) : Nat → View (Option Value × Nat)
  | 0 => do
    match ← l.next 0 with
    | some first => return (some first, 1)
    | none => .fail (.runtime .initOfEmpty)
  | k + 1 => do
    let (_, place) ← heldBack l k
    match ← l.next place with
    | some item => return (some item, place + 1)
    | none => return (none, place)

def withoutLast (l : ListView) : ListView :=
  let ended (k : Nat) : View Bool := do
    let (held, place) ← l.heldBack k
    if held.isNone then return true else l.ended place
  { ended
    item := fun k => do
      if ← ended k then .pastEnd
      let (held, _) ← l.heldBack k
      .getOr (.runtime .pastEnd) (held.map Value.copy)
    step := fun k => do
      let _ ← l.heldBack (k + 1)
      return () }

def gathered (items : View (List Value)) : ListView where
  ended k := return (← items)[k]?.isNone
  item k := do .getOr (.runtime .pastEnd) ((← items)[k]?.map Value.copy)
  step _ := return ()

end ListView

namespace View

def coerced (value : Value) (target : Ty) : View Value :=
  match target, value.kind with
  | .unknown _, _ => return value
  | .num, .num => return value
  | .str _, .str => return value
  | .arrow .., .fn => return value
  | .str _, .num => return .ofNumber value
  | .num, .str => return (← (ask value .taken).blaming (.coercion value.ty target)).value
  | .lst .., .lst => return value.recastTo target
  | .str _, .lst => return .ofList value
  | .lst .., .str => return (Value.clustersOf value).recastTo target
  | _, _ => fail (.coercion value.ty target)

def front (value : Value) (more : Bytes → Bool) : View Bytes := do
  expectKind value .str
  (TextView.of value).readUntil fun soFar => !more soFar

def search (value : Value) (needle : Bytes) : View Bool := do
  expectKind value .str
  return Bytes.occursIn needle (← (TextView.of value).readUntil (Bytes.occursIn needle))

def argNumber (b : Bound) (k : Nat) : View Float := do
  ask (← arg b k) .number

def argCount (b : Bound) (k : Nat) : View Nat :=
  return countOf (← argNumber b k)

def argBytes (b : Bound) (k : Nat) : View Bytes := do
  ask (← arg b k) .whole

def applyArg (b : Bound) (k : Nat) (x : Value) : View Value := do
  let f ← arg b k
  expectKind f .fn
  ask f (.applied x)

/-- The place reached in an argument by stepping over as many items as another argument says. -/
def skipArg (b : Bound) : View Nat := do
  let n ← argCount b 0
  let list ← arg b 1
  expectKind list .lst
  (ListView.of list).skip n

def gatherArg (b : Bound) : View (List Value) := do
  let list ← arg b 0
  expectKind list .lst
  (ListView.of list).gather

end View

open View

def Calculation.view (b : Bound) : Calculation → View Float
  | abs => return (← argNumber b 0).abs
  | add => do
    let a ← argNumber b 0
    let b ← argNumber b 1
    return a + b
  | sub => do
    let a ← argNumber b 0
    let b ← argNumber b 1
    return a - b
  | mul => do
    let a ← argNumber b 0
    let b ← argNumber b 1
    return a * b
  | div => do
    let a ← argNumber b 0
    let b ← argNumber b 1
    return a / b
  | leadingNumber => return Number.ofLeading (← front (← arg b 0) Number.mayGoOn)
  | fromBase base => return Number.ofBase base (← argBytes b 0)
  | codePoint => do
    let bytes ← front (← arg b 0) fun soFar => soFar.length < 4
    match Utf8.lossyFrom 0 bytes with
    | [] => return 0
    | c :: _ => return Float.ofNat c.toNat
  | contains => do
    let needle ← argBytes b 0
    if needle.isEmpty then return 1
    return truth (← search (← arg b 1) needle)
  | startsWith => do
    let needle ← argBytes b 0
    let soFar ← front (← arg b 1) fun soFar => soFar.length < needle.length
    return truth (needle.isPrefixOf soFar)
  | endsWith => do
    let needle ← argBytes b 0
    let text ← argBytes b 1
    return truth (needle.isSuffixOf text)

def Rendering.view (b : Bound) : Rendering → View Bytes
  | decimal => return Bytes.ofString (Number.toText (← argNumber b 0))
  | inBase base => do
    let n ← argNumber b 0
    return Bytes.ofString (← ofOption (Number.inBase? base n))
  | character => do
    let n ← argNumber b 0
    match characterAt? n with
    | some c => if 0 ≤ n then return String.utf8EncodeChar c else fail (.runtime (.badCodePoint n))
    | none => fail (.runtime (.badCodePoint n))

def Choice.chosen (b : Bound) : Choice → View Value
  | head => do
    let list ← arg b 0
    if ← (ListView.of list).ended 0 then fail (.runtime .headOfEmpty)
    (ListView.of list).item 0
  | last => do
    let list ← arg b 0
    expectKind list .lst
    getOr (.runtime .lastOfEmpty) (← (ListView.of list).last)
  | index => do
    let n ← argNumber b 1
    if n < 0 then fail (.runtime (.indexNegative n))
    let list ← arg b 0
    expectKind list .lst
    let k ← (ListView.of list).skip (countOf n)
    if ← (ListView.of list).ended k then fail (.runtime (.indexOutOfRange n))
    (ListView.of list).item k

/-- The chosen item as a value of the type of the result. A function is chosen from copies. -/
def Choice.view (choice : Choice) (b : Bound) : View Value := do
  let item ← choice.chosen (if b.ty.kind = .arrow then { b with args := Value.copyAll b.args } else b)
  coerced item (target b.ty)

def TextView.encoded (l : ListView) (e : Encoding) : TextView where
  ended := l.ended
  chunk i := do
    match ← l.next i with
    | none => pastEnd
    | some item => return e.bytes (← ask item .number)

/-- Where streaming has come to in texts one after the other: the texts that are not known to have ended,
and the place in each of them. -/
structure ConcatPlace where
  rest : List Nat
  places : Nat → Nat

namespace ConcatPlace

def settled (b : Bound) : List Nat → (Nat → Nat) → View ConcatPlace
  | [], places => return ⟨[], places⟩
  | k :: rest, places => do
    if ← (TextView.arg b k).ended (places k) then settled b rest places else return ⟨k :: rest, places⟩

def next (b : Bound) (at' : ConcatPlace) : View (Option (Bytes × ConcatPlace)) := do
  match ← settled b at'.rest at'.places with
  | ⟨[], _⟩ => return none
  | ⟨k :: rest, places⟩ =>
    return some (← (TextView.arg b k).chunk (places k), ⟨k :: rest, Function.update places k (places k + 1)⟩)

end ConcatPlace

/-- Where streaming has come to in the items of a list: the item that was begun with the place in it,
and the place in the list. -/
structure JoinPlace where
  item : Option (Value × Nat)
  index : Nat

namespace JoinPlace

def goesOn (at' : JoinPlace) : View Bool :=
  match at'.item with
  | none => return false
  | some (text, place) => return !(← (TextView.of text).ended place)

def ended (l : ListView) (at' : JoinPlace) : View Bool := do
  if ← at'.goesOn then return false else l.ended at'.index

def next (l : ListView) (separator : Bytes) (at' : JoinPlace) : View (Option (Bytes × JoinPlace)) := do
  if ← at'.goesOn then
    match at'.item with
    | none => return none
    | some (text, place) =>
      return some (← (TextView.of text).chunk place, { at' with item := some (text, place + 1) })
  else
    match ← l.next at'.index with
    | none => return none
    | some item =>
      let text ← coerced item (.str false)
      let front := if 0 < at'.index then separator else []
      match ← (TextView.of text).next 0 with
      | none => return some (front, ⟨some (text, 0), at'.index + 1⟩)
      | some chunk => return some (front ++ chunk, ⟨some (text, 1), at'.index + 1⟩)

end JoinPlace

namespace TextView

def placeAfter {π : Type} (start : π) (next : π → View (Option (Bytes × π))) : Nat → View π
  | 0 => return start
  | i + 1 => do
    match ← next (← placeAfter start next i) with
    | none => .pastEnd
    | some (_, place) => return place

def stepwise {π : Type} (start : π) (next : π → View (Option (Bytes × π))) (ended : π → View Bool) :
    TextView where
  ended i := do ended (← placeAfter start next i)
  chunk i := do
    match ← next (← placeAfter start next i) with
    | none => .pastEnd
    | some (chunk, _) => return chunk

def concatenated (b : Bound) (order : List Nat) : TextView :=
  stepwise ⟨order, fun _ => 0⟩ (ConcatPlace.next b) fun place =>
    return (← ConcatPlace.settled b place.rest place.places).rest.isEmpty

def joined (l : ListView) (separator : Bytes) : TextView :=
  stepwise ⟨none, 0⟩ (JoinPlace.next l separator) (JoinPlace.ended l)

def settles (unit : TextUnit) (start : Nat) (soFar : Bytes) : Bool :=
  let pending := soFar.drop start
  !pending.isEmpty && (unit.front pending).settled

def unitIn (unit : TextUnit) (start : Nat) (soFar : Bytes) : Option Bytes :=
  let pending := soFar.drop start
  if pending.isEmpty then none else some (pending.take (max (unit.front pending).size 1))

def unitFrom (t : TextView) (unit : TextUnit) (start : Nat) : View (Option Bytes) :=
  return unitIn unit start (← t.readUntil (settles unit start))

def unitStart (t : TextView) (unit : TextUnit) : Nat → View Nat
  | 0 => return 0
  | k + 1 => do
    let start ← unitStart t unit k
    match ← t.unitFrom unit start with
    | none => return start
    | some bytes => return start + bytes.length

def unitAt (t : TextView) (unit : TextUnit) (k : Nat) : View (Option Bytes) := do
  t.unitFrom unit (← t.unitStart unit k)

def byteAt (t : TextView) (k : Nat) : View (Option UInt8) :=
  return (← t.readUntil fun soFar => k < soFar.length)[k]?

/-- The piece from a byte to the next separator, and the byte behind that separator; the last piece has
none. -/
def pieceIn (separator : Bytes) (start : Nat) (soFar : Bytes) : Bytes × Option Nat :=
  let pending := soFar.drop start
  match Bytes.find? separator pending with
  | some size => (pending.take size, some (start + size + separator.length))
  | none => (pending, none)

def pieceFrom (t : TextView) (separator : Bytes) (start : Nat) : View (Bytes × Option Nat) :=
  return pieceIn separator start
    (← t.readUntil fun soFar => (Bytes.find? separator (soFar.drop start)).isSome)

def pieceStart (t : TextView) (separator : Bytes) : Nat → View (Option Nat)
  | 0 => return some 0
  | k + 1 => do
    match ← pieceStart t separator k with
    | none => return none
    | some start => return (← t.pieceFrom separator start).2

/-- The piece at a place, if there is one. With an empty separator there is always one more empty
piece. -/
def pieceAt (t : TextView) (separator : Bytes) (k : Nat) : View (Option Bytes) := do
  if separator.isEmpty then return some []
  match ← t.pieceStart separator k with
  | none => return none
  | some start => return some (← t.pieceFrom separator start).1

end TextView

namespace ListView

def fronts {α : Type} (front : Nat → View (Option α)) (item : α → Value) : ListView where
  ended k := return (← front k).isNone
  item k := do .getOr (.runtime .pastEnd) ((← front k).map item)
  step k := do
    let _ ← front k
    return ()

def units (t : TextView) (unit : TextUnit) : ListView :=
  .fronts (t.unitAt unit) (Cutter.item unit)

def bytes (t : TextView) : ListView :=
  .fronts t.byteAt fun byte => .number (Float.ofNat byte.toNat)

def pieces (t : TextView) (separator : View Bytes) : ListView :=
  .fronts (fun k => do t.pieceAt (← separator) k) Value.textOf

end ListView

end PullScript
