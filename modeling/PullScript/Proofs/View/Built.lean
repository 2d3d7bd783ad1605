import PullScript.Proofs.Limit
import PullScript.Proofs.Registry
import PullScript.Proofs.View.Pulling

namespace PullScript

open Act

namespace World

def feed (w : World) (tap : Nat) : Stock :=
  (w.tapAt tap).stock

theorem stocked {w : World} (hroom : w.out.limit = none) : w.Stocked w.feed w.read :=
  ⟨fun _ => rfl, fun _ => Nat.le_refl _, hroom⟩

theorem stocked_roomy (w : World) : ({ w with out := {} } : World).Stocked w.feed w.read :=
  ⟨fun _ => rfl, fun _ => Nat.le_refl _, rfl⟩

end World

/-- Work that streams nothing and follows a view answers what the view gives, whatever room there is. -/
theorem Tells.gives {σ α : Type} {s s' : σ} {n : Nat} {w w' : World} {act : Nat → Act σ α} {m : View α}
    {P : Reach → α → σ → Prop} {a : α} (h : Tells w.feed n w.read s act m P) (hquiet : Quiet (act n))
    (hrun : act n (s, w) = .ok a (s', w')) : m.Gives w.feed a := by
  have hsame := hquiet s w {}
  rw [hrun] at hsame
  obtain ⟨_, _, _, hgives, -, rfl, -⟩ := h.sound w.stocked_roomy hsame
  exact hgives

namespace Value

/-- The values that are built from literals, texts in chunks, inputs (if `inputs` is set) and the builtins of a
registry: by applying, coercing, naming and copying values, by chaining functions and by making lists. -/
inductive Built (registry : Registry) (inputs : Bool) : Value → Prop
  | number (n : Float) : Built registry inputs (.number n)
  | text (bytes : Bytes) : Built registry inputs (.textOf bytes)
  | chunks (parts : List Bytes) : Built registry inputs (.chunks parts 0)
  | input (tap : Nat) : inputs = true → Built registry inputs (.input tap 0 true)
  | builtin {name : String} {value : Value} :
    registry.lookup? name = some value → Built registry inputs value
  | list (elements : List Ty) {items : List Value} :
    (∀ item ∈ items, Built registry inputs item) → Built registry inputs (.list elements items 0)
  | chain {stages : List Value} {value : Value} :
    (∀ stage ∈ stages, Built registry inputs stage) → chainOf stages = .ok value → Built registry inputs value
  | define (name doc : String) {value : Value} :
    Built registry inputs value → Built registry inputs (.define name doc value)
  | copy {value : Value} : Built registry inputs value → Built registry inputs value.copy
  | coerced {n : Nat} {value result : Value} {target : Ty} {others others' : List Value} {w w' : World} :
    Built registry inputs value → coerce (puller n) value target (others, w) = .ok result (others', w') →
    Built registry inputs result
  | applied {n : Nat} {f f' x result : Value} {w w' : World} :
    Built registry inputs f → Built registry inputs x →
    (puller n).apply x (f, w) = .ok result (f', w') → Built registry inputs result

theorem unpulled_of_chainOf {stages : List Value} {value : Value} (hstages : UnpulledAll stages)
    (h : chainOf stages = .ok value) : value.Unpulled := by
  unfold chainOf at h
  split at h <;> [split at h; skip]
  · cases h
    exact hstages
  all_goals cases h

theorem Built.unpulled {registry : Registry} {inputs : Bool} {value : Value}
    (h : Built registry inputs value) : value.Unpulled := by
  induction h with
  | number n => exact unpulled_number n
  | text bytes => exact unpulled_textOf bytes
  | chunks parts => exact rfl
  | input tap _ => exact rfl
  | builtin hlookup =>
    obtain ⟨entry, -, rfl⟩ := Option.map_eq_some_iff.1 hlookup
    exact trivial
  | list elements _ ih => exact ⟨unpulledAll_iff.2 ih, rfl⟩
  | chain _ hchain ih => exact unpulled_of_chainOf (unpulledAll_iff.2 ih) hchain
  | define name doc _ ih => exact ih
  | copy _ ih => exact ih.copy
  | @coerced n value _ target others _ w _ _ hrun ih =>
    have htells : Tells w.feed n w.read others (fun k => coerce (puller k) value target) _ _ :=
      coerce_tells (pulls w.feed n) ih target
    exact (htells.gives (coerce_steps (steady_puller n) value target).quiet_run hrun).coerced_unpulled ih
  | @applied n f _ x _ w _ _ _ hrun ihf ihx =>
    have htells : Tells w.feed n w.read f (fun k => (puller k).apply x) _ _ :=
      (pulls w.feed n).apply ihf ihx ihf.at_start
    exact (htells.gives ((steady_puller n).apply x).quiet_run hrun).applied_unpulled ihf ihx

theorem Built.standard {registry : Registry} (hregistry : Registry.standard = .ok registry) (inputs : Bool)
    (builtin : Builtin) (sig : Ty) (hbuiltin : builtin ∈ Catalogue.standard.flatMap Module.builtins)
    (hsig : Ty.parse builtin.signature = .ok sig) :
    Built registry inputs (.head builtin (sig.qualified builtin.name)) := by
  obtain ⟨module, hmodule, hbuiltin⟩ := List.mem_flatMap.1 hbuiltin
  obtain ⟨sig', hparse, -, -, hfound⟩ := Registry.offers_of_ofModules hregistry hmodule hbuiltin
  obtain rfl := Except.ok.inj (hparse.symm.trans hsig)
  exact .builtin hfound

end Value

def Value.putInFront : Value :=
  .curried ⟨"prefix", "Str -> Str* -> Str*", 2, "put the first string in front of the second", .concat [0, 1]⟩
    (.arrow (.str true) (.str true)) [.text [97] false]

theorem Value.built_putInFront {registry : Registry} (h : Registry.standard = .ok registry) (inputs : Bool) :
    putInFront.Built registry inputs := by
  have hbuiltin := Built.standard h inputs
    ⟨"prefix", "Str -> Str* -> Str*", 2, "put the first string in front of the second", .concat [0, 1]⟩
    (.arrow (.str false) (.arrow (.str true) (.str true))) (by simp [Catalogue.standard, Catalogue.text]) (by cbv)
  exact .applied hbuiltin (.text [97]) (w := {}) (n := 2) (by cbv)

end PullScript
