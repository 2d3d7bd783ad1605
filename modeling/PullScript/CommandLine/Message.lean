import PullScript.Registry

namespace PullScript.CommandLine

def usage : String :=
  String.join <| List.map (· ++ "\n") [
    "Stream text through a pipeline of small functions.",
    "",
    "Usage: sel [OPTIONS] [SCRIPT]...",
    "",
    "Options:",
    "  -f, --file <PATH>       Read the script from a file ('-' for the standard input)",
    "  -l, --lookup [NAME]...  Print the type and doc of builtins",
    "  -t, --type              Print the type of the application",
    "  -D, --debug             Print the debug form of the application",
    "  -n, --no-run            Only build the application",
    "  -s, --strict            Require the application to accept the input text as is",
    "      --not-fun           Allow the script to be a plain value",
    "  -v, --verbose           Has no effect on what is printed",
    "  -h, --help              Print help",
    "  -V, --version           Print version"]

/-- A text with a backslash before each single quote. -/
def escapeQuotes (text : String) : String :=
  String.ofList (text.toList.flatMap fun c => if c = '\'' then ['\\', c] else [c])

/-- The message of a failed operation on the input or output. -/
def ioFailure (operation cause : String) : String :=
  "sel.io." ++ operation ++ " failed: " ++ cause

/-- The message of a failed operation on a script, which the cause follows. -/
def scriptFailure (operation path : String) : String :=
  "sel.script." ++ operation ++ "('" ++ escapeQuotes path ++ "') failed"

/-- The lines of a text. A carriage return before a line feed is not part of a line. -/
def linesOf (text : String) : List (List Char) :=
  go [] text.toList
where
  /-- The lines of what follows `line`, which is held with its latest character first. -/
  go (line : List Char) : List Char → List (List Char)
    | [] => if line.isEmpty then [] else [line.reverse]
    | '\n' :: rest =>
      let ended := match line with
        | '\r' :: line => line
        | line => line
      ended.reverse :: go [] rest
    | c :: rest => go (c :: line) rest

/-- The line of a script that holds the start of a range, with carets under the range. -/
def excerpt (source : String) (span : Span) : String :=
  let (line, column) := span.lineColumn source
  let text := (linesOf source).getD (line - 1) []
  let width := max ((span.slice? source).elim 1 List.length) 1
  "   | " ++ String.ofList text ++ "\n   | " ++
    String.ofList (List.replicate (column - 1) ' ' ++ List.replicate width '^')

/-- An error in a script with the place where it is. -/
def buildFailure (source : String) (error : Error) : String :=
  match error.span? with
  | some span => error.message ++ "\n" ++ excerpt source span
  | none => error.message

def runFailure : Error → String
  | .io message => ioFailure "stream" message
  | error => error.message

def heading (entry : Registry.Entry) : String :=
  entry.builtin.name ++ " :: " ++ entry.ty.toText ++ "\n"

def article (entry : Registry.Entry) : String :=
  let lines := (Text.wrapWords 76 entry.builtin.doc).map fun line => "    " ++ line ++ "\n"
  heading entry ++ String.join lines ++ "\n"

/-- The articles of names, up to the first one that is not known, which is given, too. -/
def articles (registry : Registry) : List String → String × Option String
  | [] => ("", none)
  | name :: rest =>
    match registry.find? name with
    | some entry =>
      let (text, unknown) := articles registry rest
      (article entry ++ text, unknown)
    | none => ("", some name)

end PullScript.CommandLine
