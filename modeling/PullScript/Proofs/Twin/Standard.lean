import PullScript.Proofs.Registry
import PullScript.Proofs.Twin.Basic

namespace PullScript

def Job.describes : Job → Bool
  | .give .description _ => true
  | _ => false

/-- Whether the signature of a builtin leads to what its job gives, and the job shows no arguments. -/
def Builtin.sound (builtin : Builtin) : Bool :=
  !builtin.job.describes &&
    (Ty.parse builtin.signature).toOption.any (·.leadsTo builtin.job.wanted builtin.arity)

theorem Builtin.ready_of_sound {builtin : Builtin} (h : builtin.sound = true) {sig : Ty}
    (hparse : Ty.parse builtin.signature = .ok sig) (hwaits : 0 < builtin.arity) :
    builtin.Ready (sig.qualified builtin.name) 0 := by
  obtain ⟨hshows, hleads⟩ := Bool.and_eq_true_iff.1 h
  rw [hparse] at hleads
  refine ⟨hwaits, Ty.leadsTo_qualified builtin.job.wanted_ne_unknown _ hleads, fun k hk => ?_⟩
  rw [hk] at hshows
  cases hshows

theorem Catalogue.standard_sound :
    ∀ module ∈ Catalogue.standard, ∀ builtin ∈ module.builtins, builtin.sound = true := by
  have hall : Catalogue.standard.all (fun module => module.builtins.all Builtin.sound) = true := by
    decide +kernel
  simpa only [List.all_eq_true] using hall

namespace Registry

def Ready (registry : Registry) : Prop :=
  ∀ entry ∈ registry.entries, entry.builtin.Ready entry.ty 0

theorem ready_of_standard {registry : Registry} (h : Registry.standard = .ok registry) : registry.Ready := by
  intro entry hentry
  obtain ⟨module, hmodule, hbuiltin, hwaits, sig, hparse, hty⟩ := mem_of_ofModules h hentry
  rw [hty]
  exact Builtin.ready_of_sound (Catalogue.standard_sound module hmodule _ hbuiltin) hparse hwaits

theorem Ready.lookup?_twin {registry : Registry} (h : registry.Ready) {ports : Bool} {name : String}
    {value : Value} (hlookup : registry.lookup? name = some value) : Value.Twin ports value value := by
  obtain ⟨entry, hfind, rfl⟩ := Option.map_eq_some_iff.1 hlookup
  exact .curried (h entry (List.mem_of_find?_eq_some hfind)) .nil

end Registry

end PullScript
