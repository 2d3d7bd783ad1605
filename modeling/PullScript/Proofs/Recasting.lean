import Mathlib
import PullScript.Eval.Pull
import PullScript.Proofs.Eval.Coerce
import PullScript.Proofs.Ty.Applying

namespace PullScript

namespace Ty

mutual

theorem replace_eq (m : Match) : (ty : Ty) → m.replace ty = ty.substituted m.get
  | .unknown _ | .num | .str _ => by simp [Match.replace, substituted]
  | .lst elements _ _ => by simp [Match.replace, substituted, replaceAll_eq m elements]
  | .arrow arg result => by simp [Match.replace, substituted, replace_eq m arg, replace_eq m result]

theorem replaceAll_eq (m : Match) : (tys : List Ty) → m.replaceAll tys = substitutedAll m.get tys
  | [] => by simp [Match.replaceAll, substitutedAll]
  | ty :: rest => by simp [Match.replaceAll, substitutedAll, replace_eq m ty, replaceAll_eq m rest]

end

theorem Mentions.of_part {ty part : Ty} {name : String} (h : part.Mentions name) (step : Step)
    (hpart : ty.part? step = some part) : ty.Mentions name := by
  obtain ⟨p, hp⟩ := h
  refine ⟨step :: p, ?_⟩
  simp only [at?, hpart, hp]

mutual

theorem substituted_congr {σ τ : String → Ty} : (ty : Ty) → (∀ name, ty.Mentions name → σ name = τ name) →
    ty.substituted σ = ty.substituted τ
  | .unknown name, h => h name ⟨[], rfl⟩
  | .num, _ | .str _, _ => rfl
  | .lst elements endless tuple, h => by
    have hall : substitutedAll σ elements = substitutedAll τ elements :=
      substitutedAll_congr elements fun k _ hty name hname => h name (hname.of_part (.element k) hty)
    simp only [substituted, hall]
  | .arrow arg result, h => by
    have harg := substituted_congr arg fun name hname => h name (hname.of_part .arg rfl)
    have hresult := substituted_congr result fun name hname => h name (hname.of_part .result rfl)
    simp only [substituted, harg, hresult]

theorem substitutedAll_congr {σ τ : String → Ty} : (tys : List Ty) →
    (∀ (k : Nat) (ty : Ty), tys[k]? = some ty → ∀ name, ty.Mentions name → σ name = τ name) →
    substitutedAll σ tys = substitutedAll τ tys
  | [], _ => rfl
  | ty :: rest, h => by
    have hty := substituted_congr ty (h 0 ty rfl)
    have hrest := substitutedAll_congr rest fun k ty hk => h (k + 1) ty hk
    simp only [substitutedAll, hty, hrest]

end

theorem FirstMet.eq_substituted {ty met : Ty} {name : String} {τ : String → Ty}
    (h : FirstMet ty (ty.substituted τ) name met) (hname : ty.Mentions name) : met = τ name := by
  obtain ⟨p, hp, hmet, -⟩ | ⟨hnone, -⟩ := h
  · exact Option.some.inj (hmet.symm.trans (at?_substituted τ hp))
  · obtain ⟨p, hp⟩ := hname
    cases (hnone p hp).symm.trans (at?_substituted τ hp)

theorem instantiated_substituted (ty : Ty) (τ : String → Ty) :
    ty.instantiated (ty.substituted τ) = ty.substituted τ := by
  rw [instantiated, replace_eq]
  exact substituted_congr ty fun name hname => (firstMet_find ty _ name).eq_substituted hname

theorem instantiated_instantiated (wanted actual : Ty) :
    wanted.instantiated (wanted.instantiated actual) = wanted.instantiated actual := by
  have hinstance : wanted.instantiated actual = wanted.substituted (Match.find {} actual wanted).get :=
    replace_eq _ wanted
  rw [hinstance, instantiated_substituted]

end Ty

namespace Value

theorem ty_recastTo (source : Value) (wanted : Ty) :
    (source.recastTo wanted).ty = wanted.instantiated source.ty := by
  by_cases hsame : wanted.instantiated source.ty = source.ty
  · rw [recastTo, if_pos hsame, hsame]
  · rw [recastTo, if_neg hsame, Value.ty]

theorem recastTo_recastTo (source : Value) (wanted : Ty) :
    (source.recastTo wanted).recastTo wanted = source.recastTo wanted := by
  have hty : wanted.instantiated (source.recastTo wanted).ty = (source.recastTo wanted).ty := by
    rw [ty_recastTo, Ty.instantiated_instantiated]
  rw [recastTo, if_pos hty]

end Value

open Act

variable {σ τ : Type} [Holder σ] [Holder τ]

theorem coerce_of_fits {value : Value} {target : Ty} (hfits : target.Fits value)
    (hlist : target.kind = .lst → value.recastTo target = value) (p : Puller) (s : σ × World) :
    coerce p value target s = .ok value s := by
  cases target with
  | unknown => rfl
  | num | str | arrow =>
    have hkind := hfits _ rfl
    simp only [coerce, hkind, pure_run]
  | lst =>
    have hkind := hfits _ rfl
    simp only [coerce, hkind, hlist rfl, pure_run]

theorem recastTo_of_coerce {p : Puller} {value result : Value} {target : Ty} {s s' : σ × World}
    (h : coerce p value target s = .ok result s') (htarget : target.kind = .lst) :
    result.recastTo target = result := by
  cases target with
  | lst =>
    cases hvalue : value.kind <;>
      simp only [coerce, hvalue, pure_run, fail_run, reduceCtorEq, EStateM.Result.ok.injEq] at h
    case str => exact h.1 ▸ Value.recastTo_recastTo ..
    case lst => exact h.1 ▸ Value.recastTo_recastTo ..
  | _ => cases htarget

/-- Instantiating a type by its own instance gives the instance, and what has been coerced to a type is
left as it is, with no adapter put around it, when it is coerced to the type once more: wherever that
happens and whatever there is to pull with. -/
theorem coerce_coerced : (∀ wanted actual : Ty,
      wanted.instantiated (wanted.instantiated actual) = wanted.instantiated actual) ∧
    ∀ (p p' : Puller) (value result : Value) (target : Ty) (s s' : σ × World) (t : τ × World),
      coerce p value target s = .ok result s' → coerce p' result target t = .ok result t :=
  ⟨Ty.instantiated_instantiated, fun _ p' _ _ _ _ _ t h =>
    coerce_of_fits (coerce_fits h) (recastTo_of_coerce h) p' t⟩

/-- A list of numbers and a text as lists of texts: each gets one adapter for its items and no second
one. -/
theorem coerce_coerced_list :
    let target : Ty := .listOf [.str true] true
    let numbers : Value := .list [.num] [.number 1, .number 2] 0
    let texts : Value := .recast target numbers 0
    let clusters : Value := .recast target (.clustersOf (.textOf [97, 98])) 0
    coerce (puller 3) numbers target (numbers, {}) = .ok texts (numbers, {}) ∧
      coerce (puller 3) texts target (texts, {}) = .ok texts (texts, {}) ∧
      coerce (puller 3) (.textOf [97, 98]) target (numbers, {}) = .ok clusters (numbers, {}) ∧
      coerce (puller 3) clusters target (texts, {}) = .ok clusters (texts, {}) := by
  intro target numbers texts clusters
  have hnumbers : coerce (puller 3) numbers target (numbers, {}) = .ok texts (numbers, {}) := by cbv
  have htext : coerce (puller 3) (.textOf [97, 98]) target (numbers, {}) = .ok clusters (numbers, {}) := by
    cbv
  exact ⟨hnumbers, coerce_coerced.2 _ _ _ _ _ _ _ _ hnumbers, htext,
    coerce_coerced.2 _ _ _ _ _ _ _ _ htext⟩

end PullScript
