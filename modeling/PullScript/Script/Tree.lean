import PullScript.Script.Token

namespace PullScript

namespace Script

structure Break where
  cause : Malformed
  span : Span

def Break.error (b : Break) : Error :=
  .malformed b.cause b.span

mutual

inductive Atom where
  | name (text : String) (span : Span)
  | number (n : Float)
  | text (content : String)
  | list (items : List Element)
  /-- A script in brackets. -/
  | subScript (first : Element) (rest : List Element)
  /-- A script behind an opening bracket that is not followed by a closing one. -/
  | unclosed (first : Element) (rest : List Element) (found : Break)
  /-- A percent sign and an operator. -/
  | flippedOperator (op : Operator) (place span : Span)
  /-- A percent sign and an atom. -/
  | flipped (arg : Atom) (span : Span)
  /-- An operator and an atom. -/
  | operator (op : Operator) (arg : Atom) (span : Span)
  | broken (found : Break)

/-- The function of an element, or its only value. -/
inductive Head where
  | atom (value : Atom)
  /-- A name for a value, which the element goes on with. -/
  | definition (name : String) (span : Span) (doc : String) (value : Atom)

inductive Element where
  | apply (head : Head) (args : List Atom)
  /-- Behind a semicolon only the next element counts. -/
  | andThen (head : Head) (args : List Atom) (next : Element)

end

def Element.broken (found : Break) : Element :=
  .apply (.atom (.broken found)) []

end Script

/-- A script: elements separated by commas, and what is wrong behind them. -/
structure Script where
  first : Script.Element
  rest : List Script.Element
  behind : Option Script.Break

end PullScript
