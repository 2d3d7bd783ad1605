import PullScript.Application
import PullScript.CommandLine.Invocation
import PullScript.CommandLine.Message

namespace PullScript.CommandLine

structure Host (m : Type → Type) where
  /-- The bytes of a file, or why it cannot be read. -/
  file : String → m (Except String Bytes)
  /-- Everything on the standard input that has not been read yet. -/
  input : m Bytes

structure Outcome where
  code : Nat := 0
  out : Bytes := []
  err : String := ""

def printed (text : String) : Outcome :=
  { out := Bytes.ofString text }

/-- Ends with an error after having printed some bytes. -/
def failed (out : Bytes) (message : String) : Outcome :=
  { code := 1, out, err := "error: " ++ message ++ "\n" }

def noticed : Notice → Outcome
  | .version => printed "sel 0.1.0\n"
  | .help => printed usage
  | .misuse _ => { code := 2, err := "error: an option is misused\n\n" ++ usage }

/-- What stopped work. Work with plentiful fuel stops by an error. -/
def stopMessage (ofError : Error → String) : Stop → String
  | .failed error => ofError error
  | .outOfFuel => "gave up"

def scriptText (path : String) (bytes : Except String Bytes) : Except String String :=
  let refuse cause := .error (scriptFailure "read" path ++ ": " ++ cause)
  match bytes with
  | .error cause => refuse cause
  | .ok bytes =>
    match Utf8.decode? bytes with
    | some source => .ok source
    | none => refuse "stream did not contain valid UTF-8"

def lookup (registry : Registry) (names : List String) : Outcome :=
  if names.isEmpty then printed (String.join (registry.entries.map heading))
  else
    match articles registry names with
    | (text, none) => printed text
    | (text, some name) => failed (Bytes.ofString text) ("unknown name '" ++ name ++ "'")

/-- Shows the type and the debug form of an application as far as that is asked for. -/
def describe (i : Invocation) : Act Application String := do
  let ty := (← Application.theRoot).ty.toText ++ "\n"
  let text := (← Application.debugText .block) ++ "\n"
  return (if i.type then ty else "") ++ (if i.debug then text else "")

def stream (input : Bytes) : Act Application Unit :=
  Application.run .plentiful (if input.isEmpty then [] else [.chunk input])

/-- What is printed about an application that is not to be run. -/
def shown (i : Invocation) (state : Application × World) : Outcome :=
  match describe i state with
  | .ok text _ => printed text
  | .error stop _ => failed [] (stopMessage Error.message stop)

/-- What is printed when an application runs on an input. -/
def ran (input : Bytes) (state : Application × World) : Outcome :=
  match Act.capture {} (stream input) state with
  | .ok (out, none) _ => { out }
  | .ok (out, some stop) _ => failed out (stopMessage runFailure stop)
  | .error stop _ => failed [] (stopMessage runFailure stop)

variable {m : Type → Type} [Monad m] (host : Host m)

/-- The script: from a file, from the standard input or from the arguments. -/
def readScript (i : Invocation) : m (Except String String) := do
  match i.file with
  | some "-" => return scriptText "-" (.ok (← host.input))
  | some path => return scriptText path (← host.file path)
  | none =>
    if i.script.isEmpty then return .error "no script given (see --help)"
    else return .ok (" ".intercalate i.script)

def buildAndRun (registry : Registry) (i : Invocation) (source : String) : m Outcome := do
  let options : Options := { strict := i.strict, notFun := i.notFun }
  let app : Application := { scope := { registry }, options }
  match Application.build .plentiful source (app, {}) with
  | .error stop _ => return failed [] (stopMessage (buildFailure source) stop)
  | .ok () state =>
    if i.type || i.debug || i.noRun then return shown i state
    else return ran (← host.input) state

def execute (args : List String) : m Outcome := do
  let i := Invocation.ofArgs args
  if let some notice := i.notice then return noticed notice
  match Registry.standard, i.lookup with
  | .error error, _ => return failed [] ("invalid builtin catalogue: " ++ error.message)
  | .ok registry, some names => return lookup registry names
  | .ok registry, none =>
    match ← readScript host i with
    | .error message => return failed [] message
    | .ok source => buildAndRun host registry i source

end PullScript.CommandLine
