import PullScript.Eval.Lists

namespace PullScript

open Act

namespace Choice

def find (p : Puller) : Choice → Act Bound Value
  | head => Bound.on 0 do
    if ← p.listEnded then fail (.runtime .headOfEmpty)
    p.current
  | last => Bound.on 0 do
    requireKind .lst
    let item ← loop (fun item => do
      match ← holding (held item) p.next with
      | some item => return .inl (some item)
      | none => return .inr item) p.fuel none
    match item with
    | some item => return item
    | none => fail (.runtime .lastOfEmpty)
  | index => do
    let n ← Bound.on 1 p.number
    if n < 0 then fail (.runtime (.indexNegative n))
    Bound.on 0 do
      skipItems p (countOf n)
      if ← p.listEnded then fail (.runtime (.indexOutOfRange n))
      p.current

/-- The type that a chosen item is coerced to. An item of unknown type is handed out as a text. -/
def target : Ty → Ty
  | .unknown _ => .str false
  | ty => ty

/-- Works on the chosen item, which is found when it is first needed. -/
def onItem {α : Type} (p : Puller) (choice : Choice) (act : Act Value α) :
    Act (Bound × Option Value) α := do
  if (← look).2.isNone then
    let item ← onFirst (choice.find p)
    let item ← coerce p item (target (← look).1.ty)
    change fun (b, _) => (b, some item)
  match ← look with
  | (b, some item) => within item (fun item => (b, some item)) act
  | (_, none) => fail (.runtime .pastEnd)

/-- The chosen item of arguments that nothing else holds, as a value of their type. -/
def chooseFrom {σ : Type} [Holder σ] (p : Puller) (choice : Choice) (b : Bound) : Act σ Value := do
  let (item, _) ← aside b do
    let item ← choice.find p
    coerce p item b.ty
  return item

/-- Applies the chosen item, which is found in copies of the arguments when it is first needed. -/
def apply (p : Puller) (choice : Choice) (x : Value) : Act (Bound × Option Value) Value := do
  if (← look).2.isNone then
    let (b, _) ← look
    let item ← holding [x] (chooseFrom p choice { b with args := Value.copyAll b.args })
    change fun (b, _) => (b, some item)
  match ← look with
  | (b, some item) => within item (fun item => (b, some item)) (p.apply x)
  | (_, none) => fail (.runtime .pastEnd)

/-- The number that a text made from the chosen item is made from. A choice that fails gives
none. -/
def takeNumber (p : Puller) (choice : Choice) :
    Act (Bound × Option Value) (Option Value.Numeric) :=
  fun s =>
    match onItem p choice p.takeNumber s with
    | .error (.failed _) s => .ok none s
    | result => result

end Choice

/-- What a builtin makes of its arguments once it has all of them. -/
def finish {σ : Type} [Holder σ] (p : Puller) (builtin : Builtin) (b : Bound) : Act σ Value := do
  match builtin.job.start with
  | .inl (how, position) => return (← aside b (Bound.give p position how)).1
  | .inr task => return b.suspend task

def applyCurried {σ : Type} [Holder σ] (p : Puller) (builtin : Builtin) (ty : Ty)
    (args : List Value) (x : Value) : Act σ Value := do
  match ty with
  | .arrow wanted _ =>
    let x ← coerce p x wanted
    let ty := (ty.applied? x.ty).getD ty
    let args := Value.copyAll args ++ [x]
    if args.length < builtin.arity then return .curried builtin ty args
    finish p builtin ⟨builtin.name, ty, args⟩
  | _ => fail (.typeMismatch ty (.arrow x.ty (.unknown "b")))

/-- Applies functions one after the other, the state being the functions. -/
def applyStages (p : Puller) (x : Value) : List Value → Act (List Value) Value
  | [] => return x
  | stage :: rest => do
    let y ← within stage (· :: rest) (p.apply x)
    let stage := (← look).headD stage
    within rest (stage :: ·) (applyStages p y rest)

/-- Applies a function of two arguments to them in the other order. -/
def applyFlipped (p : Puller) (x : Value) : Act Bound Value := do
  let second := (← Bound.arg 1).copy
  let half ← holding [second] (Bound.applyArg p 0 x)
  let (result, _) ← aside half (p.apply second)
  return result

def applyOutput {σ : Type} [Holder σ] (p : Puller) (sink : Nat) (x : Value) : Act σ Value := do
  let text ← coerce p x (.str false)
  let ((), _) ← aside text (intoSink sink p.drain)
  return .textOf []

end PullScript
