import PullScript.Proofs.View.Stock

namespace PullScript

def Task.IsOver : Task Value → Prop
  | .render _ once => once.served = true
  | .concat state => state.rest = []
  | .units _ cutter => cutter.current = none ∧ cutter.done = true
  | .split splitter => splitter.current = none ∧ splitter.done = true
  | .take state => ∃ limit, state.limit = some limit ∧ limit ≤ state.position
  | .reverse state => ∃ items, state.items = some items ∧ items.length ≤ state.position
  | _ => False

def Task.Follows : Task Value → Nat → Prop
  | .encode _, k => k = 0
  | .bytes ahead, k => ahead = [] ∧ k = 0
  | .map, k => k = 1
  | .zipWith, k => k = 1 ∨ k = 2
  | .take _, k => k = 1
  | .drop skipped, k => skipped = true ∧ k = 1
  | .tail started, k => started = true ∧ k = 0
  | .init state, k => state.started = true ∧ k = 0
  | _, _ => False

/-- A text or a list that has ended and stays so, at least `seen` bytes having been read from each
tap. -/
inductive Value.Over (feed : Feed) (seen : Reach) : Value → Prop
  | text (bytes : Bytes) : Over feed seen (.text bytes true)
  | chunks {parts : List Bytes} {position : Nat} : parts.length ≤ position → Over feed seen (.chunks parts position)
  | input {tap offset : Nat} (primary : Bool) : (feed tap).broken = none → offset = (feed tap).bytes.length →
    offset ≤ seen tap → Over feed seen (.input tap offset primary)
  | numberText (source : Option Value) {once : Once} : once.served = true → Over feed seen (.numberText source once)
  | listText {source : Value} {joiner : Joiner Value} : Over feed seen source →
    (∀ item, joiner.item = some item → Over feed seen item) → Over feed seen (.listText source joiner)
  | list (elements : List Ty) {items : List Value} {position : Nat} : items.length ≤ position →
    Over feed seen (.list elements items position)
  | recast (ty : Ty) (position : Nat) {source : Value} : Over feed seen source →
    Over feed seen (.recast ty source position)
  | clusters (source : Value) {cutter : Cutter} : cutter.current = none → cutter.done = true →
    Over feed seen (.clusters source cutter)
  | defined (name doc : String) {value : Value} : Over feed seen value → Over feed seen (.defined name doc value)
  | done (name : String) (ty : Ty) (args : List Value) {task : Task Value} : task.IsOver →
    Over feed seen (.suspended name ty args task)
  | follows (name : String) (ty : Ty) {args : List Value} {task : Task Value} {k : Nat} {arg : Value} :
    task.Follows k → args[k]? = some arg → Over feed seen arg → Over feed seen (.suspended name ty args task)
  | picked (name : String) (ty : Ty) (args : List Value) (choice : Choice) {item : Value} : Over feed seen item →
    Over feed seen (.suspended name ty args (.pick choice (some item)))
  | joining (name : String) (ty : Ty) {args : List Value} {joiner : Joiner Value} {source : Value} :
    args[1]? = some source → Over feed seen source → (∀ item, joiner.item = some item → Over feed seen item) →
    Over feed seen (.suspended name ty args (.join (some joiner)))

theorem Value.Over.mono {feed : Feed} {seen seen' : Reach} {value : Value} (h : value.Over feed seen)
    (hseen : Further seen seen') : value.Over feed seen' := by
  induction h with
  | text bytes => exact .text bytes
  | chunks hposition => exact .chunks hposition
  | input primary hbroken hoffset hle => exact .input primary hbroken hoffset (Nat.le_trans hle (hseen _))
  | numberText source hserved => exact .numberText source hserved
  | listText _ _ ihsource ihitem => exact .listText ihsource ihitem
  | list elements hposition => exact .list elements hposition
  | recast ty position _ ih => exact .recast ty position ih
  | clusters source hcurrent hdone => exact .clusters source hcurrent hdone
  | defined name doc _ ih => exact .defined name doc ih
  | done name ty args htask => exact .done name ty args htask
  | follows name ty htask harg _ ih => exact .follows name ty htask harg ih
  | picked name ty args choice _ ih => exact .picked name ty args choice ih
  | joining name ty hsource _ _ ihsource ihitem => exact .joining name ty hsource ihsource ihitem

end PullScript
