import PullScript.Eval.Puller

namespace PullScript

open Act

/-- Makes a value fit a type. A value of the right kind is not changed, apart from lists, whose
items are coerced when their types differ. -/
def coerce {σ : Type} [Holder σ] (p : Puller) (value : Value) (target : Ty) : Act σ Value :=
  match target, value.kind with
  | .unknown _, _ => return value
  | .num, .num => return value
  | .str _, .str => return value
  | .arrow .., .fn => return value
  | .str _, .num => return .ofNumber value
  | .num, .str => do
    match ← aside value p.takeNumber with
    | (some number, _) => return number.value
    | (none, _) => fail (.coercion value.ty target)
  | .lst .., .lst => return value.recastTo target
  | .str _, .lst => return .ofList value
  | .lst .., .str => return (Value.clustersOf value).recastTo target
  | _, _ => fail (.coercion value.ty target)

end PullScript
