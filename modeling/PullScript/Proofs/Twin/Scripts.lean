import PullScript.Proofs.Copies.Calls
import PullScript.Proofs.Script.Values

namespace PullScript

open Act

namespace Value

mutual

theorem Twin.copy_eq {a b : Value} : Twin false a b → a.Unpulled → a.copy = a
  | .number _, _ => rfl
  | .text .., h => congrArg (text _) h.symm
  | .chunks .., h => congrArg (chunks _) h.symm
  | .numberText _ htwin, ⟨hsource, honce⟩ => by rw [copy, htwin.copy_eq hsource, honce]
  | .listText _ _ htwin _, ⟨hsource, hitem, hstarted⟩ => by
    rw [copy, htwin.copy_eq hsource, ← hitem, ← hstarted]
  | .list _ _ htwin, ⟨hitems, hposition⟩ => by rw [copy, htwin.copy_eq hitems, hposition]
  | .recast _ _ htwin, ⟨hsource, hposition⟩ => by rw [copy, htwin.copy_eq hsource, hposition]
  | .clusters _ htwin, ⟨hsource, hcutter⟩ => by rw [copy, htwin.copy_eq hsource, hcutter]
  | .chain _ htwin, h => congrArg (chain _) (htwin.copy_eq h)
  | .curried _ htwin, h => congrArg (curried _ _) (htwin.copy_eq h)
  | .suspended _ htwin _, ⟨hargs, hunbegun⟩ => by
    rw [copy, htwin.copy_eq hargs, hunbegun.restarted_eq]
  | .definedLeft name doc htwin, h => congrArg (defined name doc) (htwin.copy_eq h)
  | .definedRight _ _ htwin, h => htwin.copy_eq h

theorem OptionTwin.copy_eq {a b : Option Value} : OptionTwin false a b → UnpulledOption a → copyOption a = a
  | .some htwin, h => congrArg some (htwin.copy_eq h)

theorem AllTwin.copy_eq {as bs : List Value} : AllTwin false as bs → UnpulledAll as → copyAll as = as
  | .nil, _ => rfl
  | .cons htwin hrest, h => congrArg₂ List.cons (htwin.copy_eq h.1) (hrest.copy_eq h.2)

end

theorem Sealed.copy_eq {value : Value} (h : value.Sealed) : value.copy = value :=
  h.twin.copy_eq h.unpulled

end Value

theorem Script.closed_built (registry : Registry) (fuel : Nat) :
    Script.Closed registry (puller fuel) (Value.Built registry false) where
  number := .number
  text := .text
  builtin _ _ := .builtin
  copy _ := .copy
  define name doc _ := .define name doc
  list elements _ hitems _ := .list elements hitems
  chain _ _ := .chain
  apply f x hf hx _ w _ := by
    cases hrun : (puller fuel).apply x (f, w) with
    | ok y s => exact ⟨.applied hf hx hrun, trivial⟩
    | error stop s => exact fun _ => ⟨trivial, trivial⟩

theorem Application.Scripted.built_within {registry : Registry} {options : Options} {app : Application}
    (h : Scripted registry options app) : app.Within registry (Value.Built registry false) :=
  h.within (Script.closed_built registry)

end PullScript
