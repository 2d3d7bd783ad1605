import PullScript.Session.Step
import PullScript.Value.Inputs

namespace PullScript

structure Session where
  app : Application
  registers : List (String × Value) := []
  /-- The taps, meters and sinks by the names of the registers they were made for. -/
  taps : List (String × Nat) := []
  meters : List (String × Nat) := []
  sinks : List (String × Nat) := []

namespace Session

open Act

instance : Holder Session := ⟨fun s => s.registers.map (·.2) ++ held s.app⟩

/-- Puts something under a name, instead of what was there. -/
def assign {α : Type} (name : String) (a : α) (table : List (String × α)) : List (String × α) :=
  (name, a) :: table.filter (·.1 ≠ name)

def register (name : String) : Act Session Value := do
  match (← look).registers.lookup name with
  | some value => return value
  | none => fail (.runtime (.emptyRegister name))

def take (name : String) : Act Session Value := do
  let value ← register name
  change fun s => { s with registers := s.registers.filter (·.1 ≠ name) }
  return value

def takeAll : List String → Act Session (List Value)
  | [] => return []
  | name :: rest => do
    let value ← take name
    return value :: (← takeAll rest)

def store (name : String) (value : Value) : Act Session Unit :=
  change fun s => { s with registers := assign name value s.registers }

def onRegister {α : Type} (name : String) (act : Act Value α) : Act Session α := do
  let value ← register name
  let s ← look
  within value (fun value => { s with registers := assign name value s.registers }) act

def onApplication {α : Type} (act : Act Application α) : Act Session α := do
  let s ← look
  within s.app (fun app => { s with app }) act

/-- Every use of a tap by a value that the session holds. -/
def uses (s : Session) : List Value.Use :=
  Value.usesAll (held s)

end Session

end PullScript
