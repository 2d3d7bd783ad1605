import PullScript.Session.Basic
import PullScript.Session.Dump

namespace PullScript.Session

open Act

variable (p : Puller)

def plain (value : Value) : Option (Value × Detail) :=
  some (value, .none)

def found (value : Option Value) : Option (Value × Detail) :=
  value.map (·, .none)

/-- The builtin of that name in the standard catalogue. -/
def standardBuiltin? (name : String) : Option Builtin :=
  (Catalogue.standard.flatMap (·.builtins)).find? (·.name == name)

/-- Makes a value for the register `place`, if there is one to be made. -/
def make (place : String) : Making → Act Session (Option (Value × Detail))
  | .number n => return plain (.number n)
  | .text bytes => return plain (.textOf bytes)
  | .chunks parts => return plain (.chunks parts 0)
  | .input reads => do
    let tap ← openTap reads
    change fun s => { s with taps := assign place tap s.taps }
    return plain (.input tap 0 true)
  | .metered n failure => do
    let meter ← addMeter { n, failure }
    change fun s => { s with meters := assign place meter s.meters }
    return plain (.metered meter)
  | .output limit => do
    let sink ← openSink { limit := some limit }
    change fun s => { s with sinks := assign place sink s.sinks }
    return plain (.output sink)
  | .list items elements => do
    let items ← takeAll items
    let elements ← match elements with
      | some elements => pure elements
      | none => ofOption (Value.elementTypes? items)
    return some (.list elements items 0, .list items.length)
  | .chain stages => do
    let stages ← takeAll stages
    let stages ← stages.mapM Script.asFunction
    return some (← ofExcept (Value.chainOf stages), .chain (stages.map Value.ty))
  | .builtin name => return found ((← look).app.scope.registry.lookup? name)
  | .head name ty =>
    return (standardBuiltin? name).map fun builtin => (.head builtin ty, .head builtin 0)
  | .wrap value adapter => do
    let value ← take value
    let _ ← aside value (requireKind adapter.kind)
    return plain (adapter.adapt value)
  | .define value name doc => return plain (.define name doc (← take value))
  | .copy value => return plain (← register value).copy
  | .apply f arg => do
    let arg ← take arg
    return plain (← onRegister f (p.apply arg))
  | .coerce value ty => do
    let value ← take value
    return plain (← PullScript.coerce p value ty)
  | .into value kind => do
    let value ← take value
    let _ ← aside value (requireKind kind)
    return plain value
  | .parse source => return plain (← onApplication (Application.parse p source))
  | .parseTokens tokens => return plain (← onApplication (Application.parseTokens p tokens))
  | .takeNumber value => return found ((← onRegister value p.takeNumber).map (·.value))
  | .current value => return plain (← onRegister value p.current)
  | .next value => return found (← onRegister value p.next)
  | .root => return plain (← onApplication Application.theRoot).copy
  | .lookup name => return found ((← look).app.scope.lookup? name)
  | .lookupUser name => return found ((← look).app.scope.lookupUser? name)

def ask : Question → Act Value Answer
  | .ty => return .valueTy (← look).ty
  | .debugText layout => return .debugText ((← look).debugText layout)
  | .number => return .number (← p.number)
  | .stream => do
    requireKind .str
    let (bytes, stop) ← capture {} p.stream
    return .written bytes stop
  | .entire limit => do
    requireKind .str
    let (bytes, stop) ← capture { limit := some limit } p.drain
    return .written bytes stop
  | .ended => do
    if (← look).kind = .lst then return .ended (← p.listEnded) else return .ended (← p.textEnded)
  | .advance => do
    p.advance
    return .done
  | .rewind => do
    p.rewind
    return .done
  | .count => return .count (← p.count)
  | .isFinite => do
    requireKind .lst
    return .finite (!(← look).ty.isEndless)
  | .function => do
    requireKind .fn
    return .builtTy (← look).ty
  | .dump items bytes => return .dump (← dump p items bytes p.fuel)

/-- How much of an input is kept, as long as the input itself is held by the session. -/
def cachedSize (tap : Nat) : Act Session (Option Nat) := do
  if (← look).uses.any (fun use => use.tap == tap && use.primary) then
    return some (← world fun w => (w.taps.getD tap { reads := [] }).kept)
  else return none

def serve : Request → Act Session Answer
  | .drop value => do
    let _ ← take value
    return .done
  | .reads name => do
    match (← look).meters.lookup name with
    | some meter => return .reads (← world fun w => (w.meters.getD meter { n := 0 }).reads)
    | none => return .nothing
  | .cached name => do
    match (← look).taps.lookup name with
    | some tap =>
      return .cached (← cachedSize tap) (← world fun w => (w.taps.getD tap { reads := [] }).pulls)
    | none => return .nothing
  | .sunk name => do
    match (← look).sinks.lookup name with
    | some sink => return .written (← world fun w => (w.sinks.getD sink {}).bytes) none
    | none => return .nothing
  | .build source => do
    onApplication (Application.build p source)
    return .builtTy (← onApplication Application.theRoot).ty
  | .applicationTy => return .applicationTy (← onApplication Application.theRoot).ty
  | .applicationText layout => return .debugText (← onApplication (Application.debugText layout))
  | .run reads limit => do
    let (bytes, stop) ← capture { limit := some limit } (onApplication (Application.run p reads))
    return .written bytes stop
  | .userNames => return .userNames (← look).app.scope.userNames
  | .options => return .options (← look).app.options
  | .defineUser name value => do
    let value ← take value
    onApplication (Application.defineUser name value)
    return .done
  | .about name => return .about ((← look).app.scope.registry.find? name)
  | .names => return .names (← look).app.scope.registry.names

def answered (act : Act Session Answer) : Act Session Answer := do
  match ← attempt act with
  | .ok answer => return answer
  | .error stop => return .stopped stop

def perform : Step → Act Session Answer
  | .make how place => answered do
    match ← make p place how with
    | some (value, detail) =>
      store place value
      return .made value.kind value.ty detail
    | none => return .nothing
  | .ask value question => answered (onRegister value (ask p question))
  | .request request => answered (serve p request)

def performAll (steps : List Step) : Act Session (List Answer) :=
  steps.mapM (perform p)

end PullScript.Session
