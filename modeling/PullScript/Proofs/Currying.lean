import Mathlib
import PullScript.Eval.Pull
import PullScript.Proofs.Eval.Coerce
import PullScript.Proofs.Registry

namespace PullScript

open Act

/-- The arguments that a builtin holds when it has been applied to `coerced`, oldest first: binding
the next argument puts copies in the place of those before. -/
def boundFrom (coerced : List Value) : List Value :=
  Value.copyAll coerced.dropLast ++ coerced.getLast?.toList

def Ty.FitEach (params : List Ty) (args : List Value) : Prop :=
  ∀ (k : Nat) (param : Ty) (arg : Value), params[k]? = some param → args[k]? = some arg →
    param.Fits arg

/-- Applying arguments in turn, beginning with `start`, has given `f`; the arguments, each as it was
coerced for the function it was applied to, are `coerced`. Every application has fuel and a world of
its own: what happens between two applications does not matter. -/
inductive Applied (start : Value) : List Value → Value → Prop
  | none : Applied start [] start
  | one {coerced : List Value} {f g x c : Value} {wanted : Ty} {fuel : Nat} {w : World}
      {s s' : Value × World} : Applied start coerced f → f.ty.arg? = some wanted →
    coerce (puller fuel) x wanted (f, w) = .ok c s → pull (fuel + 1) (.apply x) (f, w) = .ok g s' →
    Applied start (coerced ++ [c]) g

theorem boundFrom_concat (coerced : List Value) (c : Value) :
    boundFrom (coerced ++ [c]) = Value.copyAll coerced ++ [c] := by
  simp [boundFrom]

theorem copyAll_boundFrom (coerced : List Value) :
    Value.copyAll (boundFrom coerced) = Value.copyAll coerced := by
  obtain rfl | ⟨front, last, rfl⟩ := List.eq_nil_or_concat coerced
  · rfl
  · rw [List.concat_eq_append, boundFrom_concat, Value.copyAll_append, Value.copyAll_append,
      Value.copyAll_copyAll]

theorem length_boundFrom (coerced : List Value) : (boundFrom coerced).length = coerced.length := by
  rw [← Value.length_copyAll, copyAll_boundFrom, Value.length_copyAll]

namespace Ty.FitEach

variable {params : List Ty} {args : List Value}

theorem nil : FitEach params [] := by
  intro k param arg _ harg
  simp at harg

theorem copyAll_iff : FitEach params (Value.copyAll args) ↔ FitEach params args := by
  simp only [FitEach, Value.copyAll_eq_map, List.getElem?_map, Option.map_eq_some_iff]
  constructor
  · intro h k param arg hparam harg
    exact fits_copy_iff.1 (h k param arg.copy hparam ⟨arg, harg, rfl⟩)
  · rintro h k param _ hparam ⟨arg, harg, rfl⟩
    exact fits_copy_iff.2 (h k param arg hparam harg)

theorem bound (h : FitEach params args) : FitEach params (boundFrom args) := by
  rw [← copyAll_iff, copyAll_boundFrom, copyAll_iff]
  exact h

theorem concat {param : Ty} {c : Value} (h : FitEach params args)
    (hparam : params[args.length]? = some param) (hfits : param.Fits c) :
    FitEach params (args ++ [c]) := by
  intro k param' arg hparam' harg
  obtain hlt | hge := Nat.lt_or_ge k args.length
  · rw [List.getElem?_append_left hlt] at harg
    exact h k param' arg hparam' harg
  · have hk : k = args.length := by
      have := (List.getElem?_eq_some_iff.1 harg).1
      simp only [List.length_append, List.length_singleton] at this
      omega
    subst hk
    rw [List.getElem?_concat_length] at harg
    cases harg
    rw [hparam] at hparam'
    cases hparam'
    exact hfits

end Ty.FitEach

theorem apply_curried_run (fuel : Nat) (builtin : Builtin) (wanted result : Ty) (args : List Value)
    (x : Value) (w : World) :
    pull (fuel + 1) (.apply x) (.curried builtin (.arrow wanted result) args, w) =
      (do
        let c ← coerce (puller fuel) x wanted
        let ty := (Ty.Match.find {} c.ty wanted).build result
        if args.length + 1 < builtin.arity then
          return Value.curried builtin ty (Value.copyAll args ++ [c])
        else finish (puller fuel) builtin ⟨builtin.name, ty, Value.copyAll args ++ [c]⟩)
        (.curried builtin (.arrow wanted result) args, w) := by
  change applyCurried (puller fuel) builtin (.arrow wanted result) args x _ = _
  simp only [applyCurried, Ty.applied?, Option.getD_some, List.length_append, Value.length_copyAll,
    List.length_singleton]

/-- A builtin with the signature `sig` has been applied to `coerced`, still waits for arguments, and
its type is now `ty`. -/
structure Waiting (builtin : Builtin) (sig : Ty) (coerced : List Value) (ty : Ty) : Prop where
  waits : coerced.length < builtin.arity
  arity_le : builtin.arity ≤ sig.params.length
  fits : Ty.FitEach sig.params coerced
  takes : Ty.Takes (sig.params.drop coerced.length) ty

namespace Waiting

variable {builtin : Builtin} {sig ty : Ty} {coerced : List Value}

theorem left_le (h : Waiting builtin sig coerced ty) : builtin.arity - coerced.length ≤ ty.arity := by
  have hlength := h.takes.length_le
  have harity := h.arity_le
  rw [List.length_drop] at hlength
  omega

theorem arrow (h : Waiting builtin sig coerced ty) :
    ∃ formal wanted result, sig.params[coerced.length]? = some formal ∧ formal.Shapes wanted ∧
      ty = .arrow wanted result ∧ Ty.Takes (sig.params.drop (coerced.length + 1)) result := by
  have hlt : coerced.length < sig.params.length := Nat.lt_of_lt_of_le h.waits h.arity_le
  have htakes := h.takes
  rw [List.drop_eq_getElem_cons hlt] at htakes
  obtain ⟨wanted, result, hty, hshapes, hrest⟩ := htakes.arrow
  exact ⟨_, wanted, result, List.getElem?_eq_getElem hlt, hshapes, hty, hrest⟩

/-- One application: it asks for an argument of some type, fails as the coercion to that type fails,
and with the coerced argument either waits again or finishes. -/
theorem apply (h : Waiting builtin sig coerced ty) (fuel : Nat) (x : Value) (w : World) :
    ∃ wanted, ty.arg? = some wanted ∧
      (∀ stop s, coerce (puller fuel) x wanted (.curried builtin ty (boundFrom coerced), w) =
          .error stop s →
        pull (fuel + 1) (.apply x) (.curried builtin ty (boundFrom coerced), w) = .error stop s) ∧
      ∀ c s, coerce (puller fuel) x wanted (.curried builtin ty (boundFrom coerced), w) = .ok c s →
        ∃ ty', ty.applied? c.ty = some ty' ∧ Ty.FitEach sig.params (coerced ++ [c]) ∧
          Ty.Takes (sig.params.drop (coerced.length + 1)) ty' ∧
          pull (fuel + 1) (.apply x) (.curried builtin ty (boundFrom coerced), w) =
            if coerced.length + 1 < builtin.arity then
              .ok (.curried builtin ty' (boundFrom (coerced ++ [c]))) s
            else
              finish (puller fuel) builtin ⟨builtin.name, ty', boundFrom (coerced ++ [c])⟩ s := by
  obtain ⟨formal, wanted, result, hformal, hshapes, rfl, hrest⟩ := h.arrow
  refine ⟨wanted, rfl, ?_, ?_⟩
  · intro stop s hcoerce
    rw [apply_curried_run, bind_of_error hcoerce]
  · intro c s hcoerce
    refine ⟨_, rfl, h.fits.concat hformal (hshapes.fits (coerce_fits hcoerce)), hrest.build _, ?_⟩
    rw [apply_curried_run, bind_of_ok hcoerce, boundFrom_concat, copyAll_boundFrom,
      length_boundFrom]
    split <;> rfl

end Waiting

theorem Applied.waiting {builtin : Builtin} {sig start : Ty} {coerced : List Value} {f : Value}
    (hstart : Waiting builtin sig [] start) (h : Applied (.head builtin start) coerced f)
    (hfew : coerced.length < builtin.arity) :
    ∃ ty, f = .curried builtin ty (boundFrom coerced) ∧ Waiting builtin sig coerced ty := by
  induction h with
  | none => exact ⟨start, rfl, hstart⟩
  | one _ hwanted hcoerce hpull ih =>
    rw [List.length_append, List.length_singleton] at hfew
    obtain ⟨ty, rfl, hwaiting⟩ := ih (by omega)
    obtain ⟨wanted, hwanted', -, hok⟩ := hwaiting.apply _ _ _
    cases hwanted.symm.trans hwanted'
    obtain ⟨ty', -, hfits, htakes, hrun⟩ := hok _ _ hcoerce
    rw [hrun, if_pos hfew] at hpull
    cases hpull
    refine ⟨ty', rfl, by simpa using hfew, hwaiting.arity_le, hfits, by simpa using htakes⟩

/-- Every builtin of a catalogue binds its arguments one state at a time. After `coerced`, as long as
these are fewer than it waits for, it holds them, with a kind that the signature asks for and a type
that has an arrow for each argument still to come. It is applied with success exactly to what can be
coerced, except that the last argument leaves the rest to `finish`, which is then given all of them,
oldest first. -/
theorem applied_in_turn {modules : List Module} {registry : Registry}
    (hregistry : Registry.ofModules modules = .ok registry) {module : Module}
    (hmodule : module ∈ modules) {builtin : Builtin} (hbuiltin : builtin ∈ module.builtins) :
    ∃ sig start, Ty.parse builtin.signature = .ok sig ∧
      registry.lookup? builtin.name = some (.head builtin start) ∧
      ∀ coerced f, Applied (.head builtin start) coerced f → coerced.length < builtin.arity →
        ∃ ty args, f = .curried builtin ty args ∧ args = boundFrom coerced ∧
          args.length < builtin.arity ∧ builtin.arity - args.length ≤ ty.arity ∧
          Ty.FitEach sig.params args ∧
          ∀ fuel x w, ∃ wanted, ty.arg? = some wanted ∧
            (∀ stop s, coerce (puller fuel) x wanted (f, w) = .error stop s →
              pull (fuel + 1) (.apply x) (f, w) = .error stop s) ∧
            ∀ c s, coerce (puller fuel) x wanted (f, w) = .ok c s →
              ∃ ty', ty.applied? c.ty = some ty' ∧
                Ty.FitEach sig.params (Value.copyAll coerced ++ [c]) ∧
                pull (fuel + 1) (.apply x) (f, w) =
                  if args.length + 1 < builtin.arity then
                    .ok (.curried builtin ty' (Value.copyAll coerced ++ [c])) s
                  else
                    finish (puller fuel) builtin
                      ⟨builtin.name, ty', Value.copyAll coerced ++ [c]⟩ s := by
  obtain ⟨sig, hoffers⟩ := Registry.offers_of_ofModules hregistry hmodule hbuiltin
  have hstart : Waiting builtin sig [] (sig.qualified builtin.name) :=
    ⟨hoffers.waits, hoffers.arity_le, .nil, (Ty.Takes.params sig).qualified builtin.name⟩
  refine ⟨sig, _, hoffers.parses, hoffers.found, ?_⟩
  intro coerced f hf hfew
  obtain ⟨ty, rfl, hwaiting⟩ := hf.waiting hstart hfew
  have hlength := length_boundFrom coerced
  refine ⟨ty, _, rfl, rfl, hlength ▸ hfew, hlength ▸ hwaiting.left_le, hwaiting.fits.bound, ?_⟩
  intro fuel x w
  obtain ⟨wanted, hwanted, herror, hok⟩ := hwaiting.apply fuel x w
  refine ⟨wanted, hwanted, herror, ?_⟩
  intro c s hcoerce
  obtain ⟨ty', happlied, hfits, -, hrun⟩ := hok c s hcoerce
  rw [← boundFrom_concat, hlength]
  exact ⟨ty', happlied, hfits.bound, hrun⟩

theorem applied_in_turn_pad :
    let pad : Builtin := ⟨"pad", "a -> Str -> a", 2, "", .give .itself 0⟩
    let start : Ty := .arrow (.unknown "a_pad") (.arrow (.str false) (.unknown "a_pad"))
    let held : Value := .curried pad (.arrow (.str true) .num) [.number 1]
    Registry.ofModules [⟨"text", "", [pad]⟩] = .ok ⟨[⟨pad, "text", start⟩]⟩ ∧
      Applied (.head pad start) [.number 1] held ∧
      pull 2 (.apply (.number 2)) (held, {}) =
        finish (puller 1) pad ⟨"pad", .num, [.number 1, .ofNumber (.number 2)]⟩ (held, {}) := by
  intro pad start held
  have hregistry : Registry.ofModules [⟨"text", "", [pad]⟩] = .ok ⟨[⟨pad, "text", start⟩]⟩ := by cbv
  have happlied : Applied (.head pad start) [.number 1] held :=
    @Applied.one _ [] _ _ (.number 1) _ _ 0 {} _ _ .none rfl rfl rfl
  obtain ⟨sig, _, -, hlookup, hrun⟩ :=
    applied_in_turn hregistry List.mem_cons_self List.mem_cons_self
  cases hlookup
  obtain ⟨_, _, hheld, -, -, -, -, happly⟩ := hrun _ _ happlied (by decide)
  obtain ⟨-, rfl, rfl⟩ := Value.curried.inj hheld
  obtain ⟨_, hwanted, -, hok⟩ := happly 1 (.number 2) {}
  cases hwanted
  obtain ⟨_, hty, -, hpull⟩ := hok _ _ rfl
  cases hty
  exact ⟨hregistry, happlied, hpull⟩

end PullScript
