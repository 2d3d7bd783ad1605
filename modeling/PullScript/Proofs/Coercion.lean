import Mathlib
import PullScript.Proofs.Twin.Pulling

namespace PullScript

open Act

variable {n : Nat} {value y : Value} {error : Error} {target : Ty} {builtin : Builtin}

namespace Value

def isChoice : Value → Bool
  | suspended _ _ _ (.pick ..) => true
  | defined _ _ value => value.isChoice
  | _ => false

/-- The number that a text is made from, as far as that shows without pulling it. -/
def numberInside : Value → Option Numeric
  | numberText source _ => source.bind asNumeric?
  | defined _ _ value => value.numberInside
  | _ => none

def coerced (value : Value) (target : Ty) : Except Error Value :=
  match target, value.kind with
  | .unknown _, _ | .num, .num | .str _, .str | .arrow .., .fn => .ok value
  | .str _, .num => .ok (ofNumber value)
  | .str _, .lst => .ok (ofList value)
  | .lst .., .lst => .ok (value.recastTo target)
  | .lst .., .str => .ok ((clustersOf value).recastTo target)
  | .num, .str =>
    match value.numberInside with
    | some inside => .ok inside.value
    | none => .error (.coercion value.ty target)
  | _, _ => .error (.coercion value.ty target)

/-- A text that is not chosen from a list hands out its number at once, and the world stays as it is. -/
theorem takeNumber_comes : ∀ {value : Value}, value.kind = .str → value.isChoice = false → ∀ w,
    ∃ left, Comes (fun n => (puller n).takeNumber) (value, w) (.ok value.numberInside (left, w))
  | text bytes read, _, _, w => ⟨text bytes read, .pull (.of_eq fun _ => rfl)⟩
  | chunks parts position, _, _, w => ⟨chunks parts position, .pull (.of_eq fun _ => rfl)⟩
  | input tap offset primary, _, _, w => ⟨input tap offset primary, .pull (.of_eq fun _ => rfl)⟩
  | numberText _ once, _, _, w => ⟨numberText none once, .pull (.of_eq fun _ => rfl)⟩
  | listText source joiner, _, _, w => ⟨listText source joiner, .pull (.of_eq fun _ => rfl)⟩
  | defined name doc value, hkind, hchoice, w => by
    have hposes : Poses (.text .takeNumber) (fun n => (puller n).takeNumber) _ := .text .takeNumber
    obtain ⟨left, hcomes⟩ := takeNumber_comes (show value.kind = .str from hkind) hchoice
      { w with around := held (defined name doc default) :: w.around }
    have hwithin : Comes (fun n => within value (defined name doc) (puller n).takeNumber)
        (defined name doc value, w) (.ok value.numberInside (defined name doc left, w)) :=
      hcomes.on fun _ => within_run ..
    exact ⟨defined name doc left, hposes.comes_later hwithin fun n =>
      (hposes.run_fitting hkind n w).trans (hposes.named ..)⟩
  | suspended name ty args task, hkind, hchoice, w => by
    refine ⟨suspended name ty args task, .pull (.of_eq fun n => ?_)⟩
    cases task with
    | render | encode | concat | join => rfl
    | pick => cases hchoice
    | _ => cases hkind

theorem takeNumber_ne_failed {w : World} {s : Value × World} (hkind : value.kind = .str) :
    (puller n).takeNumber (value, w) ≠ .error (.failed error) s := by
  intro hrun
  have hposes : Poses (.text .takeNumber) (fun n => (puller n).takeNumber) _ := .text .takeNumber
  induction n generalizing value w s with
  | zero => cases hrun
  | succ n ih =>
    rw [hposes.run_fitting hkind] at hrun
    cases value with
    | text | chunks | input | numberText | listText => cases hrun
    | defined name doc value =>
      rw [hposes.named, within_run, Result.on_eq_error_iff] at hrun
      obtain ⟨_, hinner, -⟩ := hrun
      exact ih (show value.kind = .str from hkind) hinner
    | suspended name ty args task =>
      cases task with
      | render | encode | concat | join => cases hrun
      | pick choice item =>
        have hpick : onTask ⟨name, ty, args⟩ item (.pick choice) (choice.takeNumber (puller n))
            (suspended name ty args (.pick choice item), w) = .error (.failed error) s := hrun
        rw [onTask, within_run, Result.on_eq_error_iff] at hpick
        obtain ⟨_, hsearch, -⟩ := hpick
        unfold Choice.takeNumber at hsearch
        split at hsearch
        · cases hsearch
        · next hother => exact hother _ _ hsearch
      | _ => cases hkind
    | _ => cases hkind

end Value

variable {σ : Type} [Holder σ]

/-- Coercing a value that is no item to be chosen, or coercing to another type than that of numbers, is to
look at the value. -/
theorem coerce_comes (h : target = .num → value.kind = .str → value.isChoice = false) (s : σ × World) :
    Comes (fun n => coerce (puller n) value target) s (Act.ofExcept (value.coerced target) s) := by
  by_cases hasks : target = .num ∧ value.kind = .str
  · obtain ⟨rfl, hkind⟩ := hasks
    obtain ⟨left, hcomes⟩ := Value.takeNumber_comes hkind (h rfl hkind)
      { s.2 with around := held s.1 :: s.2.around }
    have haside : Comes (fun n => aside value (puller n).takeNumber) s (.ok (value.numberInside, left) s) :=
      (hcomes.on fun _ => holding_run ..).through (fun _ => ⟨_, rfl⟩) fun _ => aside_run ..
    unfold coerce Value.coerced
    simp only [hkind]
    refine haside.bind ?_
    cases value.numberInside <;> exact .of_eq fun _ => rfl
  · refine .of_eq fun n => ?_
    unfold coerce Value.coerced
    cases target <;> cases hkind : value.kind <;> first | rfl | exact absurd ⟨rfl, hkind⟩ hasks

theorem coerce_failed {s s' : σ × World} (h : coerce (puller n) value target s = .error (.failed error) s') :
    error = .coercion value.ty target := by
  cases target <;> cases hkind : value.kind <;>
    simp only [coerce, hkind, pure_run, fail_run, reduceCtorEq, EStateM.Result.error.injEq,
      Stop.failed.injEq] at h
  case num.str =>
    cases haside : aside value (puller n).takeNumber s with
    | ok x s₁ =>
      obtain ⟨taken, left⟩ := x
      rw [bind_of_ok haside] at h
      cases taken <;> cases h
      rfl
    | error stop s₁ =>
      rw [bind_of_error haside] at h
      cases h
      obtain ⟨state, w⟩ := s
      rw [aside_run, holding_run] at haside
      cases hrun : (puller n).takeNumber (value, { w with around := held state :: w.around }) with
      | ok taken s₂ =>
        rw [hrun] at haside
        cases haside
      | error stop s₂ =>
        rw [hrun] at haside
        cases haside
        exact absurd hrun (Value.takeNumber_ne_failed hkind)
  all_goals exact h.1.symm

/-- What a builtin makes of all its arguments if that takes no work: something that waits to be pulled, or
one of them as it is. -/
def Builtin.finished? (builtin : Builtin) (b : Bound) : Option Value :=
  match builtin.job.start with
  | .inr task => some (b.suspend task)
  | .inl (.itself, k) => b.args[k]?
  | .inl _ => none

/-- What a builtin becomes with one more argument that has been coerced, if that takes no work. -/
def Builtin.given? (builtin : Builtin) (ty : Ty) (args : List Value) (x : Value) : Option Value :=
  let bound : Bound := ⟨builtin.name, (ty.applied? x.ty).getD ty, Value.copyAll args ++ [x]⟩
  if bound.args.length < builtin.arity then some (.curried builtin bound.ty bound.args)
  else builtin.finished? bound

theorem finish_run {b : Bound} (h : builtin.finished? b = some y) (p : Puller) (s : σ × World) :
    finish p builtin b s = .ok y s := by
  unfold Builtin.finished? at h
  unfold finish
  split at h
  · next task hstart =>
    cases h
    rw [hstart]
    rfl
  · next k hstart =>
    have harg (w : World) : Bound.arg k (b, w) = .ok y (b, w) := by
      rw [Bound.arg, bind_of_ok look_run]
      simp only [h]
      rfl
    rw [hstart]
    change (aside b (Bound.arg k) >>= fun x => pure x.1) (s.1, s.2) = _
    rw [bind_run, aside_run, holding_run, harg]
    rfl
  · cases h

theorem applyCurried_comes {wanted result : Ty} {args : List Value} {x c : Value}
    (h : wanted = .num → x.kind = .str → x.isChoice = false) (hc : x.coerced wanted = .ok c)
    (hy : builtin.given? (.arrow wanted result) args c = some y) (s : σ × World) :
    Comes (fun n => applyCurried (puller n) builtin (.arrow wanted result) args x) s (.ok y s) := by
  have hcoerce := coerce_comes h s
  rw [hc] at hcoerce
  refine hcoerce.bind (.of_eq fun n => ?_)
  dsimp only [Builtin.given?] at hy ⊢
  split at hy
  · next hfew =>
    rw [if_pos hfew]
    cases hy
    rfl
  · next hmany =>
    rw [if_neg hmany]
    exact finish_run hy ..

/-- Coercion looks at a value and pulls nothing, and so does binding the value as an argument of a builtin,
unless the value is a text that has to be chosen from a list and is to be a number. Then the item is found
at once, but no error of the search shows: where there is no number the coercion fails. -/
theorem coerce_looks (value : Value) (target : Ty) (s : σ × World) :
    ((target = .num → value.kind = .str → value.isChoice = false) →
      Comes (fun n => coerce (puller n) value target) s (Act.ofExcept (value.coerced target) s) ∧
      ∀ builtin result args w,
        (∀ c y, value.coerced target = .ok c → builtin.given? (.arrow target result) args c = some y →
          Comes (fun n => (puller n).apply value) (.curried builtin (.arrow target result) args, w)
            (.ok y (.curried builtin (.arrow target result) args, w))) ∧
        ∀ error, value.coerced target = .error error →
          Comes (fun n => (puller n).apply value) (.curried builtin (.arrow target result) args, w)
            (.error (.failed error) (.curried builtin (.arrow target result) args, w))) ∧
    ∀ n error s', coerce (puller n) value target s = .error (.failed error) s' →
      error = .coercion value.ty target := by
  refine ⟨fun h => ⟨coerce_comes h s, fun builtin result args w => ?_⟩, fun n error s' => coerce_failed⟩
  refine ⟨fun c y hc hy => .pull ((applyCurried_comes h hc hy _).congr fun _ => rfl), fun error herror => ?_⟩
  have hcoerce := coerce_comes h (Value.curried builtin (.arrow target result) args, w)
  rw [herror] at hcoerce
  exact .pull (hcoerce.bind_error.congr fun _ => rfl)

/-- The first item of an empty list can be coerced to a list and be bound as an argument; that there is no
first item shows when the list is pulled. -/
theorem coerce_looks_head :
    let items : Value := .recast (.listOf [.unknown "a_head"] false) (.list [] [] 0) 0
    let item : Value := .suspended "head" (.unknown "a_head") [items] (.pick .head none)
    let target : Ty := .listOf [.str true] true
    let list : Value := .recast target (.clustersOf item) 0
    let join : Builtin := ⟨"join", "Str -> [Str*]* -> Str*", 2, "", .join⟩
    let f : Value := .curried join (.arrow target (.str true)) [.textOf [44]]
    Comes (fun n => coerce (puller n) item target) (f, {}) (.ok list (f, {})) ∧
      Comes (fun n => (puller n).apply item) (f, {})
        (.ok (.suspended "join" (.str true) [.textOf [44], list] (.join none)) (f, {})) ∧
      (puller 6).listEnded (list, {}) = .error (.failed (.runtime .headOfEmpty)) (list, {}) := by
  intro items item target list join f
  have hcoerced : item.coerced target = .ok list := by cbv
  have hgiven : join.given? (.arrow target (.str true)) [.textOf [44]] list =
      some (.suspended "join" (.str true) [.textOf [44], list] (.join none)) := by cbv
  have hlooks := (coerce_looks item target (f, ({} : World))).1 (by simp [target, Ty.listOf])
  rw [hcoerced] at hlooks
  exact ⟨hlooks.1, (hlooks.2 join (.str true) [.textOf [44]] {}).1 _ _ rfl hgiven, by cbv⟩

/-- An item at an index that cannot be read is no number, but to coerce it is to read the index. -/
theorem coerce_finds_choice :
    let items : Value := .list [] [.number 7, .textOf [97]] 0
    let item : Value := .suspended "index" (.unknown "a_index") [items, .metered 0] (.pick .index none)
    let meter : Meter := { n := 0, failure := some "never" }
    coerce (puller 9) item .num (items, { meters := #[meter] }) =
      .error (.failed (.coercion (.unknown "a_index") .num))
        (items, { meters := #[{ meter with reads := 1 }] }) := by
  cbv

end PullScript
