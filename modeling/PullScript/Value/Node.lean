import PullScript.Number.Decimal
import PullScript.Text.Quoted
import PullScript.Text.Uppercase
import PullScript.Text.Utf8
import PullScript.Value.Basic

namespace PullScript

/-- A labelled entry of a node: a number, a text, or a node again. -/
inductive Entry where
  | number (label : String) (n : Float)
  | text (label : String) (t : String)
  | node (label : String) (ty : Ty) (name : String) (entries : List Entry)

structure Node where
  ty : Ty
  name : String
  entries : List Entry

inductive Layout where
  | line
  | block
deriving DecidableEq, Repr

namespace Layout

/-- The start of a new line that is indented by `depth`, or a blank. -/
def lineBreak (layout : Layout) (depth : Nat) : String :=
  match layout with
  | line => " "
  | block => String.ofList ('\n' :: List.replicate (3 * depth) ' ')

/-- What separates the entries of a node and stands before its closing brace, for a node with
`count` entries whose lines are indented by `depth`. -/
def gap (layout : Layout) (count depth : Nat) : String :=
  if count = 1 then " " else layout.lineBreak depth

/-- The depth of the entries of a node with `count` entries at `depth`. -/
def inner (layout : Layout) (count depth : Nat) : Nat :=
  if layout = .line ∨ count = 1 then depth else depth + 1

end Layout

/-- The front of a node: its type, its name and the opening brace. -/
def Node.opening (ty : Ty) (name : String) : String :=
  "<" ++ ty.toText ++ "> " ++ name ++ " \x7b"

mutual

/-- One entry of a node that is laid out at `depth`. -/
def Entry.layOut (layout : Layout) (depth : Nat) : Entry → String
  | .number label n => label ++ "= " ++ Number.toText n
  | .text label t => label ++ "= " ++ Text.quoted t
  | .node label ty name entries =>
    label ++ "=" ++ Node.opening ty name ++ (match entries with
      | [] => " "
      | _ =>
        let count := entries.length
        Entry.layOutAll layout (layout.inner count depth) (layout.gap count (depth + 1)) entries ++
          layout.gap count depth) ++ "\x7d"

def Entry.layOutAll (layout : Layout) (depth : Nat) (gap : String) : List Entry → String
  | [] => ""
  | entry :: rest => gap ++ entry.layOut layout depth ++ Entry.layOutAll layout depth gap rest

end

def Node.layOut (layout : Layout) (depth : Nat) (node : Node) : String :=
  Node.opening node.ty node.name ++ (match node.entries with
    | [] => " "
    | entries =>
      let count := entries.length
      Entry.layOutAll layout (layout.inner count depth) (layout.gap count (depth + 1)) entries ++
        layout.gap count depth) ++ "\x7d"

/-- The name of a builtin's node: `add` with two arguments missing is `Add2`. -/
def nodeName (name : String) (missing : Nat) : String :=
  Text.capitalized name ++ toString missing

/-- The label of the `k`-th argument: `arg_A`, `arg_B` and so on, from the start again after
`arg_Z`. -/
def argumentLabel (k : Nat) : String :=
  "arg_" ++ String.singleton (Char.ofNat ('A'.toNat + k % 26))

/-- The label of the `k`-th part of a value: `v[0]`, `v[1]` and so on. -/
def partLabel (letter : String) (k : Nat) : String :=
  letter ++ "[" ++ toString k ++ "]"

def Kind.definitionName : Kind → String
  | num => "NumDefine"
  | str => "StrDefine"
  | lst => "LstDefine"
  | fn => "FunDefine"

def Entry.ofParts (label : String) (ty : Ty) (parts : String × List Entry) : Entry :=
  .node label ty parts.1 parts.2

namespace Value

mutual

def parts : Value → String × List Entry
  | number n => ("NumLiteral", [.number "n" n])
  | metered _ => ("Probe", [])
  | text bytes _ => ("StrLiteral", [.text "s" (Utf8.lossy bytes)])
  | chunks pieces _ =>
    ("StrChunks", pieces.mapIdx fun k piece => .text (partLabel "c" k) (Utf8.lossy piece))
  | input .. => ("Input", [])
  | numberText source _ => ("StrFromNum", optionEntry source)
  | listText source _ => ("StrFromLst", [.ofParts "v" source.ty source.parts])
  | list _ items _ => ("LstLiteral", entries (partLabel "v") 0 items)
  | recast _ source _ => ("LstMapCoerce", [.ofParts "v" source.ty source.parts])
  | clusters source _ => ("LstFromStr", [.ofParts "v" source.ty source.parts])
  | chain _ stages => ("FunChain", entries (partLabel "f") 0 stages)
  | output _ => ("Output", [])
  | curried builtin _ args =>
    (nodeName builtin.name (builtin.arity - args.length), entries argumentLabel 0 args)
  | suspended name _ args _ => (nodeName name 0, entries argumentLabel 0 args)
  | defined name doc value =>
    (value.kind.definitionName,
      [.text "name" name, .text "doc" doc, .ofParts "v" value.ty value.parts])

def optionEntry : Option Value → List Entry
  | none => []
  | some value => [.ofParts "v" value.ty value.parts]

/-- The entries of values with labels by position, from position `k` on. -/
def entries (label : Nat → String) (k : Nat) : List Value → List Entry
  | [] => []
  | value :: rest => .ofParts (label k) value.ty value.parts :: entries label (k + 1) rest

end

def node (value : Value) : Node :=
  match value.parts with
  | (name, entries) => ⟨value.ty, name, entries⟩

def debugText (layout : Layout) (value : Value) : String :=
  value.node.layOut layout 0

end Value

end PullScript
