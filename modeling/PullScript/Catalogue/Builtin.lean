import PullScript.Text.TextUnit

namespace PullScript

inductive Calculation where
  | abs
  | add
  | sub
  | mul
  | div
  /-- The decimal number that a text starts with. -/
  | leadingNumber
  /-- The number that a text starts with in a base. -/
  | fromBase (base : Nat)
  /-- The code point of the first character of a text. -/
  | codePoint
  | contains
  | startsWith
  | endsWith
deriving DecidableEq, Repr

inductive Rendering where
  | decimal
  | inBase (base : Nat)
  /-- The character with that code point. -/
  | character
deriving DecidableEq, Repr

/-- What the numbers of a list stand for when they are put together to a text. -/
inductive Encoding where
  | byte
  | codePoint
deriving DecidableEq, Repr

inductive Choice where
  | head
  | last
  /-- The item at the position given by the second argument. -/
  | index
deriving DecidableEq, Repr

inductive Handing where
  /-- The argument itself. -/
  | itself
  /-- A copy of the argument. -/
  | copy
  /-- A number read from the argument at once. -/
  | number
  /-- A text drained from the argument at once. -/
  | text
  /-- A copy of the argument, which must be a list. -/
  | list
  /-- A copy of the argument, which must be a function. -/
  | function
  /-- A text that shows the name, the type and all arguments. -/
  | description
deriving DecidableEq, Repr

/-- What a builtin does once it has its arguments. -/
inductive Job where
  | calculate (c : Calculation)
  | render (r : Rendering)
  | encode (e : Encoding)
  /-- The text arguments one after the other, in this order. -/
  | concat (order : List Nat)
  | join
  | bytes
  | units (unit : TextUnit)
  | split
  | map
  | repeat
  | zipWith
  | take
  | drop
  | tail
  | init
  | reverse
  | pick (choice : Choice)
  | const
  | flip
  /-- Gives up the whole binding for one argument. -/
  | give (how : Handing) (position : Nat)
deriving DecidableEq, Repr

structure Builtin where
  name : String
  signature : String
  arity : Nat
  doc : String
  job : Job
deriving Repr

structure Module where
  name : String
  doc : String
  builtins : List Builtin
deriving Repr

end PullScript
