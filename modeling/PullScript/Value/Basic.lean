import PullScript.Catalogue.Builtin
import PullScript.Error
import PullScript.Text.Words
import PullScript.Ty.Apply
import PullScript.Ty.Compare

namespace PullScript

inductive Kind where
  | num
  | str
  | lst
  | fn
deriving DecidableEq, Repr

/-- The type that a value of a kind is expected to have when nothing else is known. -/
def Kind.anyTy : Kind → Ty
  | num => .num
  | str => .str false
  | lst => .anyList
  | fn => .anyFunction

/-- A text that is written at once: its bytes once they are known, and whether they have been
streamed. -/
structure Once where
  known : Option Bytes := none
  served : Bool := false
deriving Inhabited

/-- Puts the items of a list together to a text: the item that is being streamed, and whether an
item has been begun, so that the next one needs a separator. -/
structure Joiner (α : Type) where
  separator : Bytes
  item : Option α := none
  started : Bool := false
deriving Inhabited

/-- Cuts a text into units: the bytes that are not yet part of a unit, the unit in front, and
whether the text has ended. -/
structure Cutter where
  pending : Bytes := []
  current : Option Bytes := none
  done : Bool := false
deriving Inhabited

/-- Cuts a text at the occurrences of a separator, which is read when it is first needed. -/
structure Splitter where
  separator : Option Bytes := none
  pending : Bytes := []
  current : Option Bytes := none
  done : Bool := false
deriving Inhabited

/-- The text arguments of a builtin in the order `order`, of which `rest` have not ended yet. -/
structure Concat where
  order : List Nat
  rest : List Nat
deriving Inhabited

/-- At most so many items of a list; the number is read when it is first needed. -/
structure Take where
  limit : Option Nat := none
  position : Nat := 0
deriving Inhabited

/-- All items of a list but the last: one item is held back until the next one shows. -/
structure Init (α : Type) where
  held : Option α := none
  started : Bool := false
deriving Inhabited

/-- The items of a list in reverse order, once they have been gathered. -/
structure Reverse (α : Type) where
  items : Option (List α) := none
  position : Nat := 0
deriving Inhabited

/-- The work of a builtin that has all its arguments, and how far it has come. -/
inductive Task (α : Type) where
  /-- A number, kept once it is known. -/
  | calculate (c : Calculation) (known : Option Float)
  | render (r : Rendering) (once : Once)
  | encode (e : Encoding)
  | concat (state : Concat)
  /-- The joiner is there once the separator has been read. -/
  | join (joiner : Option (Joiner α))
  /-- The bytes of the current chunk that are still ahead. -/
  | bytes (ahead : Bytes)
  | units (unit : TextUnit) (cutter : Cutter)
  | split (splitter : Splitter)
  | map
  | repeat
  | zipWith
  | take (state : Take)
  | drop (skipped : Bool)
  | tail (started : Bool)
  | init (state : Init α)
  | reverse (state : Reverse α)
  /-- One item of a list, kept once it is found. -/
  | pick (choice : Choice) (item : Option α)
  | const
  | flip

inductive Value where
  | number (n : Float)
  /-- A number whose reads are counted. -/
  | metered (meter : Nat)
  /-- A text known up front. Streaming gives it once, draining gives all of it each time. -/
  | text (bytes : Bytes) (read : Bool)
  /-- A text known up front that is streamed in these chunks. -/
  | chunks (parts : List Bytes) (position : Nat)
  /-- The input behind a tap, from an offset on. The primary one is the input itself, all others are
  copies. -/
  | input (tap : Nat) (offset : Nat) (primary : Bool)
  /-- A number seen as a text, written when it is first needed. The number can be taken back out. -/
  | numberText (source : Option Value) (once : Once)
  /-- A list seen as a text. -/
  | listText (source : Value) (joiner : Joiner Value)
  /-- A list known up front, with the element types it was given. -/
  | list (elements : List Ty) (items : List Value) (position : Nat)
  /-- A list whose items are coerced to the element types of `ty`, in turn. -/
  | recast (ty : Ty) (source : Value) (position : Nat)
  /-- A text seen as the list of its grapheme clusters. -/
  | clusters (source : Value) (cutter : Cutter)
  /-- Functions applied one after the other. -/
  | chain (ty : Ty) (stages : List Value)
  /-- A function that drains a text into a sink. -/
  | output (sink : Nat)
  /-- A builtin that waits for more arguments. -/
  | curried (builtin : Builtin) (ty : Ty) (args : List Value)
  /-- A builtin that has all its arguments. -/
  | suspended (name : String) (ty : Ty) (args : List Value) (task : Task Value)
  /-- A value under a name, with a doc string. -/
  | defined (name doc : String) (value : Value)

instance : Inhabited Value := ⟨.number 0⟩

/-- What a job does with all its arguments: hand on one of them, or begin work. -/
def Job.start : Job → (Handing × Nat) ⊕ Task Value
  | .calculate c => .inr (.calculate c none)
  | .render r => .inr (.render r {})
  | .encode e => .inr (.encode e)
  | .concat order => .inr (.concat ⟨order, order⟩)
  | .join => .inr (.join none)
  | .bytes => .inr (.bytes [])
  | .units unit => .inr (.units unit {})
  | .split => .inr (.split {})
  | .map => .inr .map
  | .repeat => .inr .repeat
  | .zipWith => .inr .zipWith
  | .take => .inr (.take {})
  | .drop => .inr (.drop false)
  | .tail => .inr (.tail false)
  | .init => .inr (.init {})
  | .reverse => .inr (.reverse {})
  | .pick choice => .inr (.pick choice none)
  | .const => .inr .const
  | .flip => .inr .flip
  | .give how position => .inl (how, position)

namespace Task

/-- The same work from the start. A limit that has been read stays known. -/
def restarted {α : Type} : Task α → Task α
  | .calculate c _ => .calculate c none
  | .render r _ => .render r {}
  | .encode e => .encode e
  | .concat state => .concat ⟨state.order, state.order⟩
  | .join _ => .join none
  | .bytes _ => .bytes []
  | .units unit _ => .units unit {}
  | .split _ => .split {}
  | .map => .map
  | .repeat => .repeat
  | .zipWith => .zipWith
  | .take state => .take { limit := state.limit }
  | .drop _ => .drop false
  | .tail _ => .tail false
  | .init _ => .init {}
  | .reverse _ => .reverse {}
  | .pick choice _ => .pick choice none
  | .const => .const
  | .flip => .flip

/-- The kind of value that work with a result of type `ty` gives. An item of unknown type is handed
out as a text. -/
def kind {α : Type} (ty : Ty) : Task α → Kind
  | .calculate .. => .num
  | .render .. | .encode .. | .concat .. | .join .. => .str
  | .bytes .. | .units .. | .split .. | .map | .repeat | .zipWith | .take .. | .drop .. | .tail ..
  | .init .. | .reverse .. => .lst
  | .pick .. =>
    match ty.kind with
    | .num => .num
    | .str | .unknown => .str
    | .lst => .lst
    | .arrow => .fn
  | .const | .flip => .fn

end Task

namespace Value

def kind : Value → Kind
  | number _ | metered _ => .num
  | text .. | chunks .. | input .. | numberText .. | listText .. => .str
  | list .. | recast .. | clusters .. => .lst
  | chain .. | output _ | curried .. => .fn
  | suspended _ ty _ task => task.kind ty
  | defined _ _ value => value.kind

structure Numeric where
  value : Value
  isNumber : value.kind = .num

def asNumeric? (value : Value) : Option Numeric :=
  if h : value.kind = .num then some ⟨value, h⟩ else none

def ty : Value → Ty
  | number _ | metered _ => .num
  | text .. | chunks .. | numberText .. => .str false
  | input .. => .str true
  | listText source _ => .str source.ty.isEndless
  | list elements _ _ => .listOf elements false
  | recast ty _ _ => ty
  | clusters source _ => .listOf [.str false] source.ty.isEndless
  | chain ty _ => ty
  | output _ => .arrow (.str false) (.unknown "()")
  | curried _ ty _ => ty
  | suspended _ ty _ _ => ty
  | defined _ _ value => value.ty

mutual

/-- A value that starts over, apart from inputs, which go on where they are. Copies share the meter,
the tap or the sink of what they are copied from. -/
def copy : Value → Value
  | number n => number n
  | metered meter => metered meter
  | text bytes _ => text bytes false
  | chunks parts _ => chunks parts 0
  | input tap offset _ => input tap offset false
  | numberText source once => numberText (copyOption source) { known := once.known }
  | listText source joiner => listText source.copy { separator := joiner.separator }
  | list elements items _ => list elements (copyAll items) 0
  | recast ty source _ => recast ty source.copy 0
  | clusters source _ => clusters source.copy {}
  | chain ty stages => chain ty (copyAll stages)
  | output sink => output sink
  | curried builtin ty args => curried builtin ty (copyAll args)
  | suspended name ty args task => suspended name ty (copyAll args) task.restarted
  | defined name doc value => defined name doc value.copy

def copyOption : Option Value → Option Value
  | none => none
  | some value => some value.copy

def copyAll : List Value → List Value
  | [] => []
  | value :: rest => value.copy :: copyAll rest

end

/-- The separator of a list's items when the list is seen as a text, by how deep its type nests. -/
def separatorFor (ty : Ty) : Bytes :=
  match ty.listDepth with
  | 0 | 1 => [0x20]
  | 2 => [0x0a]
  | _ => [0x0a, 0x0a]

def ofNumber (source : Value) : Value :=
  .numberText (some source) {}

def ofList (source : Value) : Value :=
  .listText source { separator := separatorFor source.ty }

def clustersOf (source : Value) : Value :=
  .clusters source {}

def textOf (bytes : Bytes) : Value :=
  .text bytes false

/-- A value under a name. The doc string is kept with single spaces. -/
def define (name doc : String) (value : Value) : Value :=
  .defined name (Text.singleSpaced doc) value

def head (builtin : Builtin) (ty : Ty) : Value :=
  .curried builtin ty []

/-- What goes on when `source` is coerced to the list type `wanted`: the elements are coerced,
unless nothing about their types changes. -/
def recastTo (source : Value) (wanted : Ty) : Value :=
  let target := wanted.instantiated source.ty
  if target = source.ty then source else .recast target source 0

/-- Whether all items have types compatible with `first`; nothing when a comparison goes round in
circles. -/
def allCompatible? (first : Ty) : List Value → Option Bool
  | [] => some true
  | item :: rest =>
    match item.ty.equals? first with
    | some true => allCompatible? first rest
    | other => other

/-- The element types of a list of these items: the type of the first one when all others are
compatible with it, and none otherwise. -/
def elementTypes? : List Value → Option (List Ty)
  | [] => some []
  | first :: rest => (allCompatible? first.ty rest).map fun same => if same then [first.ty] else []

/-- Functions applied one after the other: from the argument type of the first to the result type of
the last. -/
def chainOf (stages : List Value) : Except Error Value :=
  match stages.head?, stages.getLast? with
  | some first, some last =>
    match first.ty.arg?, last.ty.result? with
    | some arg, some result => .ok (.chain (.arrow arg result) stages)
    | _, _ => .error (.typeMismatch first.ty .anyFunction)
  | _, _ => .error (.runtime .noStages)

end Value

end PullScript
