import PullScript.Ty.Apply

namespace PullScript.Ty

def params : Ty → List Ty
  | arrow arg result => arg :: result.params
  | _ => []

theorem length_params (ty : Ty) : ty.params.length = ty.arity := by
  induction ty using params.induct with
  | case1 arg result ih => simp [params, arity, ih]
  | case2 ty hnot => cases ty <;> simp_all [params, arity]

/-- `ty` has the head constructor of `formal`, where an unknown asks for none. -/
def Shapes (formal ty : Ty) : Prop :=
  formal.kind = .unknown ∨ ty.kind = formal.kind

/-- Replacing unknowns does not change a head constructor that was asked for: an unknown that is
replaced had an unknown in its place from the start. -/
theorem Shapes.of_kind_eq {formal ty ty' : Ty} (h : formal.Shapes ty)
    (hkind : ty.kind ≠ .unknown → ty'.kind = ty.kind) : formal.Shapes ty' := by
  obtain hfree | hsame := h
  · exact .inl hfree
  · by_cases hunknown : ty.kind = .unknown
    · exact .inl (hsame ▸ hunknown)
    · exact .inr ((hkind hunknown).trans hsame)

theorem kind_qualified (owner : String) (ty : Ty) : (ty.qualified owner).kind = ty.kind := by
  cases ty <;> rfl

theorem arity_qualified (owner : String) (ty : Ty) : (ty.qualified owner).arity = ty.arity := by
  induction ty using arity.induct with
  | case1 arg result ih => simp [qualified, arity, ih]
  | case2 ty hnot => cases ty <;> simp_all [qualified, arity]

theorem kind_build (m : Match) {ty : Ty} (h : ty.kind ≠ .unknown) : (m.build ty).kind = ty.kind := by
  cases ty with
  | unknown name => exact absurd rfl h
  | num => rfl
  | str => rfl
  | lst => rfl
  | arrow => rfl

/-- `ty` takes an argument for each of `formals`, in order, and the parameter in each place has the
head constructor that is asked for there. -/
inductive Takes : List Ty → Ty → Prop
  | done {ty : Ty} : Takes [] ty
  | more {formal arg result : Ty} {formals : List Ty} :
    formal.Shapes arg → Takes formals result → Takes (formal :: formals) (.arrow arg result)

namespace Takes

variable {formals : List Ty} {formal ty : Ty}

theorem params (ty : Ty) : Takes ty.params ty := by
  induction ty using params.induct with
  | case1 arg result ih => exact .more (.inr rfl) ih
  | case2 ty hnot =>
    cases ty with
    | arrow arg result => exact absurd rfl (hnot arg result)
    | _ => exact .done

theorem length_le (h : Takes formals ty) : formals.length ≤ ty.arity := by
  induction h with
  | done => exact Nat.zero_le _
  | more _ _ ih => exact Nat.succ_le_succ ih

theorem arrow (h : Takes (formal :: formals) ty) :
    ∃ arg result, ty = .arrow arg result ∧ formal.Shapes arg ∧ Takes formals result := by
  cases h with
  | more hshapes hrest => exact ⟨_, _, rfl, hshapes, hrest⟩

theorem qualified (owner : String) (h : Takes formals ty) : Takes formals (ty.qualified owner) := by
  induction h with
  | done => exact .done
  | more hshapes _ ih => exact .more (hshapes.of_kind_eq fun _ => kind_qualified owner _) ih

theorem build (m : Match) (h : Takes formals ty) : Takes formals (m.build ty) := by
  induction h with
  | done => exact .done
  | more hshapes _ ih => exact .more (hshapes.of_kind_eq (kind_build m)) ih

end Takes

end PullScript.Ty
