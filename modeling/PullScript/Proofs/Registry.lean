import PullScript.Proofs.Outcome
import PullScript.Proofs.Ty.Params
import PullScript.Registry

namespace PullScript.Registry

variable {entry : Entry} {α : Type} {P : Registry → Prop} {modules : List Module}
  {step : Registry → α → Except Error Registry}

variable {registry registry' : Registry} {module : String} {builtin : Builtin}

/-- The registry has a builtin under its name, with the type `sig` that its signature stands for,
and the builtin does not wait for more arguments than the type takes. -/
structure Offers (registry : Registry) (builtin : Builtin) (sig : Ty) : Prop where
  parses : Ty.parse builtin.signature = .ok sig
  waits : 0 < builtin.arity
  arity_le : builtin.arity ≤ sig.params.length
  found : registry.lookup? builtin.name = some (.head builtin (sig.qualified builtin.name))

section

variable (h : registry.add module builtin = .ok registry')
include h

theorem add_eq_ok :
    ∃ sig, Ty.parse builtin.signature = .ok sig ∧ 0 < builtin.arity ∧
      builtin.arity ≤ sig.params.length ∧ registry.find? builtin.name = none ∧
      registry' = ⟨registry.entries ++ [⟨builtin, module, sig.qualified builtin.name⟩]⟩ := by
  obtain ⟨sig, hparse, h⟩ := bind_ok_iff.1 h
  have harity : (sig.qualified builtin.name).arity = sig.params.length := by
    rw [Ty.arity_qualified, Ty.length_params]
  by_cases hfew : builtin.arity = 0 ∨ sig.params.length < builtin.arity
  · simp only [harity, if_pos hfew] at h
    cases h
  · by_cases hknown : (registry.find? builtin.name).isSome
    · simp only [harity, if_neg hfew, if_pos hknown] at h
      cases h
    · simp only [harity, if_neg hfew, if_neg hknown] at h
      cases h
      exact ⟨sig, hparse, by omega, by omega, by simpa using hknown, rfl⟩

theorem find?_add {name : String} (hfind : registry.find? name = some entry) : registry'.find? name = some entry := by
  obtain ⟨sig, -, -, -, -, rfl⟩ := add_eq_ok h
  simp only [find?, List.find?_append] at hfind ⊢
  rw [hfind, Option.some_or]

theorem offers_add : ∃ sig, registry'.Offers builtin sig := by
  obtain ⟨sig, hparse, hwaits, harity, hnew, rfl⟩ := add_eq_ok h
  refine ⟨sig, hparse, hwaits, harity, ?_⟩
  simp only [find?] at hnew
  simp [lookup?, find?, List.find?_append, hnew]

end

theorem Offers.add {builtin' : Builtin} {sig : Ty} (h : registry.Offers builtin sig)
    (hadd : registry.add module builtin' = .ok registry') : registry'.Offers builtin sig := by
  obtain ⟨entry, hfind, hhead⟩ := Option.map_eq_some_iff.1 h.found
  refine ⟨h.parses, h.waits, h.arity_le, ?_⟩
  rw [lookup?, find?_add hadd hfind, ← hhead]
  rfl

theorem foldlM_keeps :
    ∀ (items : List α), (∀ registry registry', ∀ a ∈ items, P registry →
        step registry a = .ok registry' → P registry') →
      ∀ {registry registry' : Registry}, P registry →
        items.foldlM step registry = .ok registry' → P registry' := by
  intro items
  induction items with
  | nil =>
    rintro - registry registry' hP ⟨⟩
    exact hP
  | cons a items ih =>
    intro hstep registry registry' hP h
    obtain ⟨between, hfirst, hrest⟩ := bind_ok_iff.1 h
    have hbetween := hstep _ _ a List.mem_cons_self hP hfirst
    exact ih (fun _ _ b hb => hstep _ _ b (List.mem_cons_of_mem a hb)) hbetween hrest

theorem foldlM_brings (hstep : ∀ registry registry' a, P registry → step registry a = .ok registry' → P registry')
    {a : α} (hbring : ∀ registry registry', step registry a = .ok registry' → P registry') :
    ∀ {items : List α} {registry registry' : Registry}, a ∈ items →
      items.foldlM step registry = .ok registry' → P registry' := by
  intro items registry registry' hmem h
  obtain ⟨before, after, rfl⟩ := List.append_of_mem hmem
  rw [List.foldlM_append] at h
  obtain ⟨between, -, h⟩ := bind_ok_iff.1 h
  obtain ⟨reached, hfirst, hrest⟩ := bind_ok_iff.1 h
  exact foldlM_keeps after (fun _ _ b _ => hstep _ _ b) (hbring _ _ hfirst) hrest

theorem offers_of_ofModules (h : ofModules modules = .ok registry) {module : Module} (hmodule : module ∈ modules)
    (hbuiltin : builtin ∈ module.builtins) : ∃ sig, registry.Offers builtin sig := by
  have hadd : ∀ (name : String) (registry registry' : Registry) (other : Builtin),
      (∃ sig, registry.Offers builtin sig) → registry.add name other = .ok registry' →
        ∃ sig, registry'.Offers builtin sig := by
    rintro name registry registry' other ⟨sig, hsig⟩ hother
    exact ⟨sig, hsig.add hother⟩
  refine foldlM_brings (fun _ _ m => foldlM_keeps m.builtins fun _ _ b _ => hadd m.name _ _ b) ?_ hmodule h
  intro _ _ hfold
  exact foldlM_brings (hadd module.name) (fun _ _ => offers_add) hbuiltin hfold

theorem mem_of_ofModules (h : ofModules modules = .ok registry) (hentry : entry ∈ registry.entries) :
    ∃ module ∈ modules, entry.builtin ∈ module.builtins ∧ 0 < entry.builtin.arity ∧
      ∃ sig, Ty.parse entry.builtin.signature = .ok sig ∧ entry.ty = sig.qualified entry.builtin.name := by
  let P (registry : Registry) : Prop := ∀ entry ∈ registry.entries, ∃ module ∈ modules,
    entry.builtin ∈ module.builtins ∧ 0 < entry.builtin.arity ∧
      ∃ sig, Ty.parse entry.builtin.signature = .ok sig ∧ entry.ty = sig.qualified entry.builtin.name
  have hadd : ∀ module ∈ modules, ∀ registry registry', ∀ builtin ∈ module.builtins, P registry →
      registry.add module.name builtin = .ok registry' → P registry' := by
    intro module hmodule registry registry' builtin hbuiltin hP hadd entry hentry
    obtain ⟨sig, hparse, hwaits, -, -, rfl⟩ := add_eq_ok hadd
    obtain hold | hnew := List.mem_append.1 hentry
    · exact hP entry hold
    · obtain rfl := List.mem_singleton.1 hnew
      exact ⟨module, hmodule, hbuiltin, hwaits, sig, hparse, rfl⟩
  have hmodules : P registry := by
    refine foldlM_keeps modules (fun _ _ module hmodule => ?_) (by simp [P]) h
    exact foldlM_keeps module.builtins (hadd module hmodule)
  exact hmodules entry hentry

theorem exists_standard : ∃ registry, Registry.standard = .ok registry := by
  have hloads : Registry.standard.toOption.isSome = true := by decide +kernel
  cases hstandard : Registry.standard with
  | error error =>
    rw [hstandard] at hloads
    cases hloads
  | ok registry => exact ⟨registry, rfl⟩

end PullScript.Registry
