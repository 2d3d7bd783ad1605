import PullScript.Registry
import PullScript.Value.Holder

namespace PullScript

structure Scope where
  registry : Registry
  /-- The defined names with their values, in the order of the names. -/
  user : List (String × Value) := []
deriving Inhabited

namespace Scope

instance : Holder Scope := ⟨fun scope => scope.user.map (·.2)⟩

/-- A copy of the value of a defined name. The value itself is never handed out. -/
def lookupUser? (scope : Scope) (name : String) : Option Value :=
  (scope.user.lookup name).map Value.copy

def lookup? (scope : Scope) (name : String) : Option Value :=
  scope.lookupUser? name <|> scope.registry.lookup? name

def insert (name : String) (value : Value) : List (String × Value) → List (String × Value)
  | [] => [(name, value)]
  | (other, held) :: rest =>
    if name < other then (name, value) :: (other, held) :: rest
    else (other, held) :: insert name value rest

def define (scope : Scope) (name : String) (value : Value) : Except Error Scope :=
  if (scope.lookup? name).isSome then .error (.runtime (.nameTaken name))
  else .ok { scope with user := insert name value scope.user }

def userNames (scope : Scope) : List String :=
  scope.user.map (·.1)

end Scope

end PullScript
