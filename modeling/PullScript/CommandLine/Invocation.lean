namespace PullScript.CommandLine

inductive Flag where
  | file
  | lookup
  | type
  | debug
  | noRun
  | strict
  | notFun
  | verbose
  | version
  | help
deriving DecidableEq, Repr

namespace Flag

def ofLong? : String → Option Flag
  | "file" => some file
  | "lookup" => some lookup
  | "type" => some type
  | "debug" => some debug
  | "no-run" => some noRun
  | "strict" => some strict
  | "not-fun" => some notFun
  | "verbose" => some verbose
  | "version" => some version
  | "help" => some help
  | _ => none

def ofShort? : Char → Option Flag
  | 'f' => some file
  | 'l' => some lookup
  | 't' => some type
  | 'D' => some debug
  | 'n' => some noRun
  | 's' => some strict
  | 'v' => some verbose
  | 'V' => some version
  | 'h' => some help
  | _ => none

def takesValue : Flag → Bool
  | file | lookup => true
  | _ => false

end Flag

/-- An option as it was given, with a value that stands in the same argument. -/
structure Given where
  flag : Flag
  attached : Option String := none
deriving DecidableEq, Repr

/-- The options in an argument with one hyphen: letters of options, of which one that takes a value
takes the letters behind it. An argument with any other letter, in a value too, is none of these. -/
def readShort : List Char → Option (List Given)
  | [] => some []
  | c :: rest =>
    match Flag.ofShort? c, readShort rest with
    | some flag, some given =>
      if flag.takesValue ∧ rest ≠ [] then some [⟨flag, some (String.ofList rest)⟩]
      else some (⟨flag, none⟩ :: given)
    | _, _ => none

/-- The option in an argument with two hyphens, with a value behind an equals sign. -/
def readLong (chars : List Char) : Option (List Given) :=
  let name := chars.takeWhile (· ≠ '=')
  (Flag.ofLong? (String.ofList name)).map fun flag =>
    match chars.drop name.length with
    | [] => [⟨flag, none⟩]
    | _ :: value => [⟨flag, some (String.ofList value)⟩]

/-- The options in an argument, if it is one for options. -/
def readGiven (arg : String) : Option (List Given) :=
  match arg.toList with
  | '-' :: '-' :: rest => readLong rest
  | '-' :: c :: rest => readShort (c :: rest)
  | _ => none

/-- What ends the command line before anything else is done. -/
inductive Notice where
  | version
  | help
  /-- An option lacks a value, or has one that it does not take. -/
  | misuse (flag : Flag)
deriving DecidableEq, Repr

structure Invocation where
  file : Option String := none
  /-- The names to look up; all of them if there are none. -/
  lookup : Option (List String) := none
  type : Bool := false
  debug : Bool := false
  noRun : Bool := false
  strict : Bool := false
  notFun : Bool := false
  verbose : Bool := false
  script : List String := []
  notice : Option Notice := none
deriving DecidableEq, Repr

namespace Invocation

/-- Takes a notice into account, of which the first one counts. -/
def note (i : Invocation) (notice : Notice) : Invocation :=
  { i with notice := i.notice <|> some notice }

/-- The script is in a file, whose path is not empty. -/
def readFrom (i : Invocation) (path : String) : Invocation :=
  if path.isEmpty then i.note (.misuse .file) else { i with file := some path }

def addName (i : Invocation) (name : String) : Invocation :=
  { i with lookup := some (i.lookup.getD [] ++ [name]) }

def give (i : Invocation) (g : Given) : Invocation :=
  if g.attached.isSome ∧ ¬ g.flag.takesValue then i.note (.misuse g.flag)
  else
    match g.flag with
    | .file => g.attached.elim i i.readFrom
    | .lookup => g.attached.elim { i with lookup := some (i.lookup.getD []) } i.addName
    | .type => { i with type := true }
    | .debug => { i with debug := true }
    | .noRun => { i with noRun := true }
    | .strict => { i with strict := true }
    | .notFun => { i with notFun := true }
    | .verbose => { i with verbose := true }
    | .version => i.note .version
    | .help => i.note .help

/-- The option whose value is to be in the next argument. -/
def waiting (given : List Given) : Option Flag :=
  given.getLast?.bind fun g => if g.flag.takesValue ∧ g.attached.isNone then some g.flag else none

/-- Marks the option that waits for a value as misused, unless it can do without one. -/
def unserved (i : Invocation) (waiting : Option Flag) : Invocation :=
  if waiting = some .file then i.note (.misuse .file) else i

/-- Reads arguments, the option `wanting` taking its value from the first of them if that is no
option. Looking up takes as many names as there are. -/
def read (i : Invocation) (wanting : Option Flag) : List String → Invocation
  | [] => i.unserved wanting
  | arg :: rest =>
    if arg = "--" then { i.unserved wanting with script := rest }
    else
      match readGiven arg, wanting with
      | some given, _ => read (given.foldl give (i.unserved wanting)) (waiting given) rest
      | none, some .file => read (i.readFrom arg) none rest
      | none, some _ => read (i.addName arg) (some .lookup) rest
      | none, none => { i with script := arg :: rest }

def ofArgs (args : List String) : Invocation :=
  read {} none args

end Invocation

end PullScript.CommandLine
