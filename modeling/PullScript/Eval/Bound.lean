import PullScript.Eval.Coerce
import PullScript.Value.Node

namespace PullScript

open Act

structure Bound where
  name : String
  ty : Ty
  args : List Value
deriving Inhabited

namespace Bound

instance : Holder Bound := ⟨(·.args)⟩

variable {α : Type}

def suspend (b : Bound) (task : Task Value) : Value :=
  .suspended b.name b.ty b.args task

def arg (k : Nat) : Act Bound Value := do
  let b ← look
  match b.args[k]? with
  | some value => return value
  | none => fail (.runtime (.missingArgument b.name (k + 1)))

def on (k : Nat) (act : Act Value α) : Act Bound α := do
  let value ← arg k
  let b ← look
  within value (fun value => { b with args := b.args.set k value }) act

/-- Applies the argument `k`, which must be a function. -/
def applyArg (p : Puller) (k : Nat) (x : Value) : Act Bound Value :=
  on k do
    requireKind .fn
    p.apply x

/-- A description: the name, the type and the debug form on one line. -/
def describe (b : Bound) : String :=
  b.name ++ " :: " ++ b.ty.toText ++ " = " ++
    (⟨b.ty, nodeName b.name 0, Value.entries argumentLabel 0 b.args⟩ : Node).layOut .line 0

def give (p : Puller) (k : Nat) : Handing → Act Bound Value
  | .itself => arg k
  | .copy => return (← arg k).copy
  | .number => return .number (← on k p.number)
  | .text => return .textOf (← on k (readAll p))
  | .list => on k do
    requireKind .lst
    return (← look).copy
  | .function => on k do
    requireKind .fn
    return (← look).copy
  | .description => return .textOf (Bytes.ofString (describe (← look)))

end Bound

end PullScript
