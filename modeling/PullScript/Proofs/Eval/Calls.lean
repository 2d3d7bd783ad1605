import PullScript.Proofs.Coercion
import PullScript.Proofs.Currying
import PullScript.Proofs.Eval.Yields

namespace PullScript

open Act

variable {builtin : Builtin} {result : Ty} {x y value : Value}

/-- Applying a function to some arguments, one after the other, comes to a value. -/
inductive Calls : Value → List Value → Value → Prop where
  | none (f : Value) : Calls f [] f
  | one {f f' g x result : Value} {args : List Value} :
    Yields (fun fuel => (puller fuel).apply x) f [] g f' → Calls g args result → Calls f (x :: args) result

theorem Calls.two {task : Task Value} {one two two' result' ty : Ty} {c d : Value} (harity : builtin.arity = 2)
    (hjob : builtin.job.start = .inr task) (hx : ∀ fuel, (coerce (puller fuel) x one : Act Value Value) = pure c)
    (hhalf : (Ty.Match.find {} c.ty one).build (.arrow two result) = .arrow two' result')
    (hy : ∀ fuel, (coerce (puller fuel) y two' : Act Value Value) = pure d)
    (hty : (Ty.Match.find {} d.ty two').build result' = ty) :
    Calls (.head builtin (.arrow one (.arrow two result))) [x, y]
      (.suspended builtin.name ty [c.copy, d] task) := by
  have hone : Yields (fun fuel => (puller fuel).apply x) (.curried builtin (.arrow one (.arrow two result)) []) []
      (.curried builtin (.arrow two' result') [c]) (.curried builtin (.arrow one (.arrow two result)) []) := by
    refine .of_comes fun w => .later (.of_eq fun _ => rfl) ⟨_, rfl⟩ fun fuel => ?_
    change pull (fuel + 1) (.apply x) _ = _
    rw [apply_curried_run, hx, pure_bind]
    simp only [hhalf, harity]
    rfl
  have htwo : Yields (fun fuel => (puller fuel).apply y) (.curried builtin (.arrow two' result') [c]) []
      (.suspended builtin.name ty [c.copy, d] task) (.curried builtin (.arrow two' result') [c]) := by
    refine .of_comes fun w => .later (.of_eq fun _ => rfl) ⟨_, rfl⟩ fun fuel => ?_
    change pull (fuel + 1) (.apply y) _ = _
    rw [apply_curried_run, hy, pure_bind]
    simp only [hty, harity, finish, hjob]
    rfl
  exact .one hone (.one htwo (.none _))

theorem Value.coerced_num (h : value.kind = .num) : value.coerced .num = .ok value := by
  simp only [coerced, h]

theorem Value.coerced_str (h : value.kind = .str) (endless : Bool) : value.coerced (.str endless) = .ok value := by
  simp only [coerced, h]

theorem Value.coerced_lst (h : value.kind = .lst) (elements : List Ty) (endless tuple : Bool) :
    value.coerced (.lst elements endless tuple) = .ok (value.recastTo (.lst elements endless tuple)) := by
  simp only [coerced, h]

theorem Calls.given {wanted : Ty} {args more : List Value} {c z : Value}
    (hlook : wanted = .num → x.kind = .str → x.isChoice = false) (hc : x.coerced wanted = .ok c)
    (hy : builtin.given? (.arrow wanted result) args c = some y) (h : Calls y more z) :
    Calls (.curried builtin (.arrow wanted result) args) (x :: more) z :=
  .one (.of_comes fun _ => .pull ((applyCurried_comes hlook hc hy _).congr fun _ => rfl)) h

theorem Calls.givenText {endless : Bool} {args more : List Value} {z : Value} (hkind : x.kind = .str)
    (hy : builtin.given? (.arrow (.str endless) result) args x = some y) (h : Calls y more z) :
    Calls (.curried builtin (.arrow (.str endless) result) args) (x :: more) z :=
  .given (fun hnum => by cases hnum) (Value.coerced_str hkind endless) hy h

theorem Registry.lookup?_of_standard {registry : Registry} (h : Registry.standard = .ok registry)
    {name signature : String} {arity : Nat} {job : Job} {sig : Ty}
    (hbuiltin : ∃ module ∈ Catalogue.standard, ∃ builtin ∈ module.builtins,
      builtin.name = name ∧ builtin.signature = signature ∧ builtin.arity = arity ∧ builtin.job = job)
    (hsig : Ty.parse signature = .ok sig) :
    ∃ doc, registry.lookup? name = some (.head ⟨name, signature, arity, doc, job⟩ (sig.qualified name)) := by
  obtain ⟨module, hmodule, ⟨_, _, _, doc, _⟩, hbuiltin, rfl, rfl, rfl, rfl⟩ := hbuiltin
  obtain ⟨sig', hparse, -, -, hfound⟩ := offers_of_ofModules h hmodule hbuiltin
  cases hparse.symm.trans hsig
  exact ⟨doc, hfound⟩

end PullScript
