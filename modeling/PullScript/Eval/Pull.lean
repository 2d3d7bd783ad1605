import PullScript.Eval.Functions
import PullScript.Eval.Texts

namespace PullScript

open Act

variable (p : Puller)

/-- Works on the arguments and the state of a suspended builtin. -/
def onTask {α τ : Type} [Inhabited τ] (b : Bound) (state : τ) (task : τ → Task Value)
    (act : Act (Bound × τ) α) : Act Value α :=
  within (b, state) (fun (b, state) => b.suspend (task state)) act

/-- Works on the arguments of a suspended builtin whose work has no state. -/
def onArgs {α : Type} (b : Bound) (task : Task Value) (act : Act Bound α) : Act Value α :=
  within b (·.suspend task) act

/-- The number of a calculation, made when it is first needed. -/
def calculated (c : Calculation) : Act (Bound × Option Float) Float := do
  match (← look).2 with
  | some n => return n
  | none =>
    let n ← onFirst (c.run p)
    change fun (b, _) => (b, some n)
    return n

def answerNumber : Act Value Float := do
  match ← look with
  | .number n => return n
  | .metered meter => readMeter meter
  | .defined name doc value => within value (.defined name doc) p.number
  | .suspended name ty args (.calculate c known) =>
    onTask ⟨name, ty, args⟩ known (.calculate c) (calculated p c)
  | .suspended name ty args (.pick choice item) =>
    onTask ⟨name, ty, args⟩ item (.pick choice) (choice.onItem p p.number)
  | value => fail (.typeMismatch value.ty .num)

def answerChosenText (choice : Choice) (ask : TextAsk) : Act (Bound × Option Value) ask.Reply :=
  match ask with
  | .takeNumber => choice.takeNumber p
  | ask => choice.onItem p (p.pull (.text ask))

def answerText (ask : TextAsk) : Act Value ask.Reply := do
  match ← look with
  | .text bytes read => zoom read (.text bytes) (answerLiteral bytes ask)
  | .chunks parts position => zoom position (.chunks parts) (answerChunks p.fuel parts ask)
  | .input tap offset primary =>
    zoom offset (.input tap · primary) (answerInput p.fuel tap ask)
  | .numberText source once =>
    within (source, once) (fun (source, once) => .numberText source once) (answerNumberText p ask)
  | .listText source joiner =>
    within (joiner, source) (fun (joiner, source) => .listText source joiner) (Joiner.answer p ask)
  | .defined name doc value => within value (.defined name doc) (p.pull (.text ask))
  | .suspended name ty args (.render r once) =>
    onTask ⟨name, ty, args⟩ once (.render r) (Once.answer (r.run p) (return none) ask)
  | .suspended name ty args (.encode e) =>
    onArgs ⟨name, ty, args⟩ (.encode e) (answerEncoding p e ask)
  | .suspended name ty args (.concat state) =>
    onTask ⟨name, ty, args⟩ state .concat (Concat.answer p ask)
  | .suspended name ty args (.join joiner) =>
    onTask ⟨name, ty, args⟩ joiner .join (Joiner.answerJoin p ask)
  | .suspended name ty args (.pick choice item) =>
    onTask ⟨name, ty, args⟩ item (.pick choice) (answerChosenText p choice ask)
  | value => fail (.typeMismatch value.ty (.str false))

def answerList (ask : ListAsk) : Act Value ask.Reply := do
  match ← look with
  | .list elements items position => zoom position (.list elements items) (answerItems items ask)
  | .recast ty source position =>
    within (source, position) (fun (source, position) => .recast ty source position)
      (answerRecast p ty ask)
  | .clusters source cutter =>
    within (cutter, source) (fun (cutter, source) => .clusters source cutter)
      (Cutter.answer p (Value.clustersOf source).ty .grapheme ask)
  | .defined name doc value => within value (.defined name doc) (p.pull (.list ask))
  | .suspended name ty args (.bytes ahead) =>
    onTask ⟨name, ty, args⟩ ahead .bytes (ByteList.answer p ask)
  | .suspended name ty args (.units unit cutter) =>
    onTask ⟨name, ty, args⟩ cutter (.units unit) (answerUnits p unit ask)
  | .suspended name ty args (.split splitter) =>
    onTask ⟨name, ty, args⟩ splitter .split (Splitter.answer p ask)
  | .suspended name ty args .map => onArgs ⟨name, ty, args⟩ .map (answerMap p ask)
  | .suspended name ty args .repeat => onArgs ⟨name, ty, args⟩ .repeat (answerRepeat p ask)
  | .suspended name ty args .zipWith => onArgs ⟨name, ty, args⟩ .zipWith (ZipWith.answer p ask)
  | .suspended name ty args (.take state) =>
    onTask ⟨name, ty, args⟩ state .take (Take.answer p ask)
  | .suspended name ty args (.drop skipped) =>
    onTask ⟨name, ty, args⟩ skipped .drop (Drop.answer p ask)
  | .suspended name ty args (.tail started) =>
    onTask ⟨name, ty, args⟩ started .tail (Tail.answer p ask)
  | .suspended name ty args (.init state) =>
    onTask ⟨name, ty, args⟩ state .init (Init.answer p ask)
  | .suspended name ty args (.reverse state) =>
    onTask ⟨name, ty, args⟩ state .reverse (Reverse.answer p ask)
  | .suspended name ty args (.pick choice item) =>
    onTask ⟨name, ty, args⟩ item (.pick choice) (choice.onItem p (p.pull (.list ask)))
  | value => fail (.typeMismatch value.ty .anyList)

def answerApply (x : Value) : Act Value Value := do
  match ← look with
  | .chain ty stages => within stages (.chain ty) (applyStages p x stages)
  | .output sink => applyOutput p sink x
  | .curried builtin ty args => applyCurried p builtin ty args x
  | .defined name doc value => within value (.defined name doc) (p.apply x)
  | .suspended name ty args .const =>
    onArgs ⟨name, ty, args⟩ .const (return (← Bound.arg 0).copy)
  | .suspended name ty args .flip => onArgs ⟨name, ty, args⟩ .flip (applyFlipped p x)
  | .suspended name ty args (.pick choice item) =>
    onTask ⟨name, ty, args⟩ item (.pick choice) (choice.apply p x)
  | value => fail (.typeMismatch value.ty (.arrow x.ty (.unknown "b")))

/-- Fails unless the value is of the kind that a question is for. -/
def requireFor (ask : Ask) : Act Value Unit := do
  let value ← look
  if value.kind = ask.kind then return () else fail (.typeMismatch value.ty ask.wantedTy)

/-- How values answer the questions for their kind. -/
def answerFitting : (ask : Ask) → Act Value ask.Reply
  | .number => answerNumber p
  | .text ask => answerText p ask
  | .list ask => answerList p ask
  | .apply x => answerApply p x

/-- How values answer. A question for another kind of value is a mismatch of types. -/
def answer (ask : Ask) : Act Value ask.Reply := do
  requireFor ask
  answerFitting p ask

def pull : Nat → (ask : Ask) → Act Value ask.Reply
  | 0, _ => outOfFuel
  | fuel + 1, ask => answer ⟨fuel, pull fuel⟩ ask

def puller (fuel : Nat) : Puller where
  fuel := fuel
  pull := pull fuel

/-- The way to ask with more fuel than there is time to use up. -/
def Puller.plentiful : Puller :=
  puller 1000000000000000000

end PullScript
