import PullScript.Value.Basic

namespace PullScript.Value

structure Use where
  tap : Nat
  offset : Nat
  primary : Bool

mutual

def uses : Value → List Use
  | input tap offset primary => [⟨tap, offset, primary⟩]
  | numberText source _ => usesOption source
  | listText source joiner => source.uses ++ usesJoiner joiner
  | list _ items _ => usesAll items
  | recast _ source _ => source.uses
  | clusters source _ => source.uses
  | chain _ stages => usesAll stages
  | curried _ _ args => usesAll args
  | suspended _ _ args task => usesAll args ++ usesTask task
  | defined _ _ value => value.uses
  | _ => []

def usesOption : Option Value → List Use
  | none => []
  | some value => value.uses

def usesAll : List Value → List Use
  | [] => []
  | value :: rest => value.uses ++ usesAll rest

/-- The uses inside the values that a joiner holds. -/
def usesJoiner : Joiner Value → List Use
  | ⟨_, item, _⟩ => usesOption item

def usesTask : Task Value → List Use
  | .join joiner => usesOptionJoiner joiner
  | .init state => usesInit state
  | .reverse state => usesReverse state
  | .pick _ item => usesOption item
  | _ => []

def usesOptionJoiner : Option (Joiner Value) → List Use
  | none => []
  | some joiner => usesJoiner joiner

def usesInit : Init Value → List Use
  | ⟨held, _⟩ => usesOption held

def usesReverse : Reverse Value → List Use
  | ⟨items, _⟩ => usesOptionAll items

/-- The uses inside a list of values that may be missing. -/
def usesOptionAll : Option (List Value) → List Use
  | none => []
  | some items => usesAll items

end

def offsetsAt (tap : Nat) (values : List Value) : List Nat :=
  (usesAll values).filterMap fun use => if use.tap = tap then some use.offset else none

end PullScript.Value
