import PullScript.Eval.Coerce
import PullScript.Proofs.Eval.Act
import PullScript.Proofs.Ty.Params
import PullScript.Proofs.Value.Copy

namespace PullScript

/-- The kind of the values of a type with a head constructor; those of an unknown may be of any. -/
def Ty.Kind.valueKind? : Ty.Kind → Option PullScript.Kind
  | .unknown => none
  | .num => some .num
  | .str => some .str
  | .lst => some .lst
  | .arrow => some .fn

def Ty.Fits (ty : Ty) (value : Value) : Prop :=
  ∀ kind, ty.kind.valueKind? = some kind → value.kind = kind

theorem Ty.Shapes.fits {formal ty : Ty} {value : Value} (h : formal.Shapes ty) (hfits : ty.Fits value) :
    formal.Fits value := by
  intro kind hkind
  obtain hfree | hsame := h
  · rw [hfree] at hkind
    cases hkind
  · exact hfits kind (hsame ▸ hkind)

theorem Ty.fits_copy_iff {ty : Ty} {value : Value} : ty.Fits value.copy ↔ ty.Fits value := by
  simp only [Fits, Value.kind_copy]

theorem Value.kind_recastTo {source : Value} (h : source.kind = .lst) (wanted : Ty) :
    (source.recastTo wanted).kind = .lst := by
  by_cases hsame : wanted.instantiated source.ty = source.ty
  · simpa only [recastTo, if_pos hsame] using h
  · simp only [recastTo, if_neg hsame, Value.kind]

open Act in
theorem coerce_fits {σ : Type} [Holder σ] {p : Puller} {value result : Value} {target : Ty}
    {s s' : σ × World} (h : coerce p value target s = .ok result s') : target.Fits result := by
  intro kind hkind
  -- Each target kind has two or three kinds of values that it accepts.
  cases target <;> cases hkind <;> cases hvalue : value.kind <;>
    simp only [coerce, hvalue, pure_run, fail_run, reduceCtorEq, EStateM.Result.ok.injEq] at h
  case num.refl.num => exact h.1 ▸ hvalue
  case num.refl.str =>
    obtain ⟨⟨taken, _⟩, s₁, -, h⟩ := bind_eq_ok_iff.1 h
    cases taken with
    | none => cases h
    | some number =>
      cases h
      exact number.isNumber
  case str.refl.num => exact h.1 ▸ rfl
  case str.refl.str => exact h.1 ▸ hvalue
  case str.refl.lst => exact h.1 ▸ rfl
  case lst.refl.str => exact h.1 ▸ Value.kind_recastTo rfl _
  case lst.refl.lst => exact h.1 ▸ Value.kind_recastTo hvalue _
  case arrow.refl.fn => exact h.1 ▸ hvalue

end PullScript
