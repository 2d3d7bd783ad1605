import PullScript.Eval.Pull
import PullScript.Scope
import PullScript.Script.Reader

namespace PullScript.Script

open Act

def lookupAt (name : String) (span : Span) : Act Scope Value := do
  match (← look).lookup? name with
  | some value => return value
  | none => fail (.malformed (.unknownName name) span)

variable (p : Puller)

def applyTo {σ : Type} [Holder σ] (f x : Value) : Act σ Value :=
  return (← aside f (p.apply x)).1

def asFunction {σ : Type} [Holder σ] (value : Value) : Act σ Value :=
  return (← aside value (requireKind .fn)).2

/-- The function behind an operator, with its arguments swapped. -/
def operatorAt (op : Operator) (span : Span) : Act Scope Value := do
  let f ← lookupAt op.builtin span
  let flip ← lookupAt "flip" span
  applyTo p flip f

def define (name doc : String) (value : Value) : Act Scope Value := do
  let value := Value.define name doc value
  put (← ofExcept ((← look).define name value.copy))
  return value

def listOf {σ : Type} (items : List Value) : Act σ Value :=
  return .list (← ofOption (Value.elementTypes? items)) items 0

/-- What the elements of a script have come to so far. -/
inductive Flow where
  /-- Functions that are to be chained. -/
  | stages (functions : List Value)
  /-- A value that is handed on. -/
  | value (x : Value)

namespace Flow

instance : Holder Flow :=
  ⟨fun
    | stages functions => functions
    | value x => [x]⟩

/-- The first element decides: a function starts a chain, everything else is handed on. -/
def start (first : Value) : Flow :=
  if first.kind = .fn then .stages [first] else .value first

/-- What is done with the value of the next element: it joins the chain, or is applied to the value
that is handed on. -/
def next {σ : Type} [Holder σ] (element : Value) : Flow → Act σ Flow
  | stages functions => return .stages (functions ++ [← asFunction element])
  | value x => return .value (← applyTo p element x)

/-- The value of all elements. A single function is no chain. -/
def result {σ : Type} : Flow → Act σ Value
  | stages [f] => return f
  | stages functions => ofExcept (Value.chainOf functions)
  | value x => return x

end Flow

mutual

def Atom.eval : Atom → Act Scope Value
  | .name text span => lookupAt text span
  | .number n => return .number n
  | .text content => return .textOf (Bytes.ofString content)
  | .list items => do listOf (← evalAll items)
  | .subScript first rest => do
    (← evalRest (.start (← first.eval)) rest).result
  | .unclosed first rest found => do
    let _ ← (← evalRest (.start (← first.eval)) rest).result
    fail found.error
  | .flippedOperator op place span => do
    let f ← operatorAt p op place
    applyTo p (← lookupAt "flip" span) f
  | .flipped arg span => do
    let f ← arg.eval
    applyTo p (← lookupAt "flip" span) f
  | .operator op arg span => do
    let x ← arg.eval
    let f ← holding [x] (operatorAt p op span)
    applyTo p f x
  | .broken found => fail found.error

/-- The value of a head. A name that is known cannot be defined again. -/
def Head.eval : Head → Act Scope Value
  | .atom value => value.eval
  | .definition name span doc value => do
    if ((← look).lookup? name).isSome then fail (.malformed (.knownName name) span)
    define name doc (← value.eval)

def Element.eval : Element → Act Scope Value
  | .apply head args => do applyAll (← head.eval) args
  | .andThen head args next => do
    let value ← applyAll (← head.eval) args
    holding [value] next.eval

def applyAll (f : Value) : List Atom → Act Scope Value
  | [] => return f
  | arg :: args => do
    let x ← holding [f] arg.eval
    applyAll (← applyTo p f x) args

def evalAll : List Element → Act Scope (List Value)
  | [] => return []
  | element :: rest => do
    let value ← element.eval
    return value :: (← holding [value] (evalAll rest))

def evalRest (flow : Flow) : List Element → Act Scope Flow
  | [] => return flow
  | element :: rest => do
    let value ← holding (held flow) element.eval
    evalRest (← flow.next p value) rest

end

def eval (script : Script) : Act Scope Value := do
  let flow ← evalRest p (.start (← script.first.eval p)) script.rest
  let value ← flow.result
  match script.behind with
  | none => return value
  | some found => fail found.error

end PullScript.Script
