import PullScript.Script.Evaluate

namespace PullScript

open Act

structure Options where
  /-- The application must take the input text as it is. -/
  strict : Bool := false
  /-- The application may be a value that is no function. -/
  notFun : Bool := false
deriving Inhabited

/-- The names that are known and the value of the script that was built last. -/
structure Application where
  scope : Scope
  options : Options := {}
  root : Option Value := none
deriving Inhabited

namespace Application

instance : Holder Application := ⟨fun app => held app.root ++ held app.scope⟩

def onScope {α : Type} (act : Act Scope α) : Act Application α := do
  let app ← look
  within app.scope (fun scope => { app with scope }) act

/-- The value of a script. Its definitions become known. -/
def parse (p : Puller) (source : String) : Act Application Value := do
  let script ← ofExcept (Script.ofSource source)
  onScope (script.eval p)

def parseTokens (p : Puller) (tokens : List Script.Token) : Act Application Value :=
  onScope ((Script.ofTokens tokens).eval p)

/-- Builds a script. One that fails leaves the value of the script that was built before. -/
def build (p : Puller) (source : String) : Act Application Unit := do
  let root ← parse p source
  change fun app => { app with root := some root }

/-- Defines a name for a value, unless the name is already known. -/
def defineUser (name : String) (value : Value) : Act Application Unit :=
  onScope do put (← ofExcept ((← look).define name value))

def theRoot : Act Application Value := do
  match (← look).root with
  | some root => return root
  | none => fail (.runtime .nothingBuilt)

/-- What the application makes of the input behind a tap. -/
def result (p : Puller) (tap : Nat) : Act Application Value := do
  let root ← theRoot
  let app ← look
  if root.kind = .fn then
    let wanted := root.ty.arg?.getD (.unknown "a")
    let text := Ty.str true
    if app.options.strict then
      if !(← ofOption (wanted.equals? text)) then fail (.typeMismatch wanted text)
    let arg ← coerce p (.input tap 0 true) wanted
    within root (fun root => { app with root := some root }) (p.apply arg)
  else if app.options.notFun then return root.copy
  else fail (.typeMismatch root.ty .anyFunction)

/-- Streams what the application makes of a reader. -/
def run (p : Puller) (reads : List Read) : Act Application Unit := do
  let result ← result p (← openTap reads)
  let text ← coerce p result (.str true)
  let ((), _) ← aside text p.drain

def userText (layout : Layout) (user : List (String × Value)) : String :=
  let entry := fun (name, value) =>
    layout.lineBreak 2 ++ "[" ++ name ++ "]= " ++ (Value.node value).layOut layout 2
  let closing := if user.isEmpty then "" else layout.lineBreak 1
  "\x7b" ++ String.join (user.map entry) ++ closing ++ "\x7d"

def debugText (layout : Layout) : Act Application String := do
  let root ← theRoot
  let app ← look
  return "App \x7b" ++ layout.lineBreak 1 ++ "f= " ++ root.node.layOut layout 1 ++
    layout.lineBreak 1 ++ "user= " ++ userText layout app.scope.user ++ layout.lineBreak 0 ++ "\x7d"

end Application

end PullScript
