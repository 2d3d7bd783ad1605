import Mathlib
import PullScript.Proofs.Eval.Coerce
import PullScript.Proofs.Twin.Pulling
import PullScript.Proofs.Twin.Standard

namespace PullScript

open Act

instance : (ask : Ask) → Twinned ask.Reply
  | .number => inferInstanceAs (Twinned Float)
  | .text ask => inferInstanceAs (Twinned ask.Reply)
  | .list ask => inferInstanceAs (Twinned ask.Reply)
  | .apply _ => inferInstanceAs (Twinned Value)

theorem pull_agree (n : Nat) (ask : Ask) (harg : ∀ x, ask = .apply x → Value.Twin true x x) :
    Agree ⟨true, true⟩ (pull n ask) fun k => pull k ask := by
  cases ask with
  | number => exact (asks_puller true n).number
  | text ask => exact (asks_puller true n).text ask (.inl rfl)
  | list ask => exact (asks_puller true n).list ask
  | apply x => exact (asks_puller true n).apply (harg x rfl)

theorem Task.fits_of_suits {task : Task Value} {ty : Ty} (h : ty.suits task.wanted = true) :
    ty.kind.valueKind? = some (task.kind ty) ∨ task.kind ty = .str ∧ ty.kind = .unknown := by
  cases task with
  | pick choice item =>
    cases ty with
    | unknown => exact .inr ⟨rfl, rfl⟩
    | _ => exact .inl rfl
  | _ => cases ty <;> first | exact .inl rfl | cases h

namespace Value

theorem Twin.fits {ports : Bool} : ∀ {a b : Value}, Twin ports a b →
    a.ty.kind.valueKind? = some a.kind ∨ a.kind = .str ∧ a.ty.kind = .unknown
  | _, _, .recast _ hty _ => .inl (congrArg Ty.Kind.valueKind? hty)
  | _, _, .chain hty _ => .inl (congrArg Ty.Kind.valueKind? hty)
  | .curried builtin ty args, _, .curried hready _ => by
    obtain ⟨hwaits, hleads, -⟩ := hready
    obtain ⟨more, hmore⟩ : ∃ more, builtin.arity - args.length = more + 1 :=
      ⟨builtin.arity - args.length - 1, by omega⟩
    rw [hmore] at hleads
    cases ty with
    | arrow => exact .inl rfl
    | _ => cases hleads
  | _, _, .suspended hsuits _ _ => Task.fits_of_suits hsuits
  | _, _, .definedLeft _ _ h => h.fits
  | _, _, .definedRight _ _ h => h.fits
  | _, _, .number _ | _, _, .metered .. | _, _, .text .. | _, _, .chunks .. | _, _, .input ..
  | _, _, .numberText .. | _, _, .listText .. | _, _, .list .. | _, _, .clusters ..
  | _, _, .output .. => .inl rfl

/-- The values that are reached from literals, texts in chunks, inputs, outputs and the builtins of a
registry: by applying, coercing, naming and copying values, by chaining functions and making lists, and
by asking values, which may change them, for items and numbers. -/
inductive Reached (registry : Registry) : Value → Prop
  | number (n : Float) : Reached registry (.number n)
  | text (bytes : Bytes) : Reached registry (.textOf bytes)
  | chunks (parts : List Bytes) : Reached registry (.chunks parts 0)
  | input (tap : Nat) : Reached registry (.input tap 0 true)
  | output (sink : Nat) : Reached registry (.output sink)
  | builtin {name : String} {value : Value} :
    registry.lookup? name = some value → Reached registry value
  | list (elements : List Ty) {items : List Value} :
    (∀ item ∈ items, Reached registry item) → Reached registry (.list elements items 0)
  | chain {stages : List Value} {value : Value} :
    (∀ stage ∈ stages, Reached registry stage) → chainOf stages = .ok value → Reached registry value
  | define (name doc : String) {value : Value} :
    Reached registry value → Reached registry (.define name doc value)
  | copy {value : Value} : Reached registry value → Reached registry value.copy
  | coerced {n : Nat} {value result : Value} {target : Ty} {others others' : List Value} {w w' : World} :
    Reached registry value → (∀ other ∈ others, Reached registry other) →
    coerce (puller n) value target (others, w) = .ok result (others', w') → Reached registry result
  | applied {n : Nat} {f f' x result : Value} {w w' : World} :
    Reached registry f → Reached registry x →
    (puller n).apply x (f, w) = .ok result (f', w') → Reached registry result
  | current {n : Nat} {list list' item : Value} {w w' : World} : Reached registry list →
    (puller n).current (list, w) = .ok item (list', w') → Reached registry item
  | next {n : Nat} {list list' item : Value} {w w' : World} : Reached registry list →
    (puller n).next (list, w) = .ok (some item) (list', w') → Reached registry item
  | taken {n : Nat} {text text' : Value} {number : Numeric} {w w' : World} : Reached registry text →
    (puller n).takeNumber (text, w) = .ok (some number) (text', w') → Reached registry number.value
  | answered {n : Nat} {value value' : Value} {ask : Ask} {reply : ask.Reply} {w w' : World} :
    Reached registry value → (∀ x, ask = .apply x → Reached registry x) →
    pull n ask (value, w) = .ok reply (value', w') → Reached registry value'
  | failed {n : Nat} {value value' : Value} {ask : Ask} {error : Error} {w w' : World} :
    Reached registry value → (∀ x, ask = .apply x → Reached registry x) →
    pull n ask (value, w) = .error (.failed error) (value', w') → Reached registry value'

theorem Reached.twin {registry : Registry} (hready : registry.Ready) {value : Value}
    (h : Reached registry value) : Twin true value value := by
  induction h with
  | number n => exact .number n
  | text bytes => exact .text bytes false
  | chunks parts => exact .chunks parts 0
  | input tap => exact .input tap 0 true rfl
  | output sink => exact .output sink rfl
  | builtin hlookup => exact hready.lookup?_twin hlookup
  | list elements _ ih => exact .list elements 0 (.self ih)
  | chain _ hchain ih => exact chainOf_twin ih hchain
  | define name doc _ ih => exact .definedLeft _ _ (.definedRight _ _ ih)
  | copy _ ih => exact ih.copy
  | @coerced n _ _ target _ _ _ _ _ _ hrun ih ihothers =>
    have hcoerce : Agree ⟨true, true⟩ (coerce (puller n) _ target : Act (List Value) Value) _ :=
      coerce_agree (asks_puller true n) ih target
    exact (hcoerce.ok_self n rfl (AllTwin.self ihothers) hrun).1
  | @applied n _ _ _ _ _ _ _ _ hrun ihf ihx => exact (((asks_puller true n).apply ihx).ok_self (m := ⟨true, true⟩) n rfl ihf hrun).1
  | @current n _ _ _ _ _ _ hrun ih => exact ((asks_puller true n).current.ok_self (m := ⟨true, true⟩) n rfl ih hrun).1
  | @next n _ _ _ _ _ _ hrun ih =>
    have hitem := ((asks_puller true n).next.ok_self (m := ⟨true, true⟩) n rfl ih hrun).1
    cases hitem with
    | some hitem => exact hitem
  | @taken n _ _ _ _ _ _ hrun ih =>
    have hnumber := ((asks_puller true n).takeNumber.ok_self (m := ⟨true, true⟩) n rfl ih hrun).1
    cases hnumber with
    | some hnumber => exact hnumber
  | @answered n _ _ ask _ _ _ _ _ hrun ih iharg => exact ((pull_agree n ask iharg).ok_self (m := ⟨true, true⟩) n rfl ih hrun).2
  | @failed n _ _ ask _ _ _ _ _ hrun ih iharg => exact (pull_agree n ask iharg).failed_self (m := ⟨true, true⟩) n rfl ih hrun

theorem Reached.kind_sound {registry : Registry} (hregistry : Registry.standard = .ok registry)
    {value : Value} (h : Reached registry value) :
    (value.ty.kind.valueKind? = some value.kind ∨ value.kind = .str ∧ value.ty.kind = .unknown) ∧
      (value.kind = .fn → value.ty.kind = .arrow) ∧
      (value.kind = .num ∨ value.kind = .lst → value.ty.kind ≠ .unknown) := by
  have hfits := (h.twin (Registry.ready_of_standard hregistry)).fits
  refine ⟨hfits, fun hfn => ?_, fun hkind hunknown => ?_⟩
  · rw [hfn] at hfits
    cases hty : value.ty.kind <;> simp [hty, Ty.Kind.valueKind?] at hfits
    rfl
  · rw [hunknown] at hfits
    obtain ⟨⟨⟩⟩ | ⟨hstr, -⟩ := hfits
    rw [hstr] at hkind
    obtain ⟨⟨⟩⟩ | ⟨⟨⟩⟩ := hkind

theorem Reached.kind_sound_head :
    let items : Value := .recast (.listOf [.unknown "a_head"] false) (.list [] [] 0) 0
    let item : Value := .suspended "head" (.unknown "a_head") [items] (.pick .head none)
    ∃ registry, Registry.standard = .ok registry ∧ Reached registry item ∧
      (item.ty.kind.valueKind? = some item.kind ∨ item.kind = .str ∧ item.ty.kind = .unknown) := by
  intro items item
  let head : Builtin := ⟨"head", "[a] -> a", 1, "the first item of a list", .pick .head⟩
  obtain ⟨registry, hregistry⟩ := Registry.exists_standard
  have hlist : Catalogue.list ∈ Catalogue.standard := by simp [Catalogue.standard]
  have hhead : head ∈ Catalogue.list.builtins := by simp [Catalogue.list, head]
  obtain ⟨sig, hparse, -, -, hfound⟩ := Registry.offers_of_ofModules hregistry hlist hhead
  have hsig : Ty.parse head.signature = .ok (.arrow (.listOf [.unknown "a"] false) (.unknown "a")) := by cbv
  obtain rfl := Except.ok.inj (hparse.symm.trans hsig)
  have hempty : Reached registry (.list [] [] 0) := .list [] fun _ hmem => absurd hmem List.not_mem_nil
  have hitem : Reached registry item := .applied (.builtin hfound) hempty (w := {}) (n := 2) (by cbv)
  exact ⟨registry, hregistry, hitem, (hitem.kind_sound hregistry).1⟩

end Value

end PullScript
