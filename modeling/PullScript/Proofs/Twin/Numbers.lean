import PullScript.Proofs.Twin.Asks

namespace PullScript

open Act

variable {m : Mode} {p : Puller} (h : Asks m.ports p)
include h

theorem searchFor_agree (needle : Bytes) : Agreed m p (searchFor · needle) := by
  refine .bind (requireKind_agree .str) fun _ _ _ => .loop ?_ p.fuel rfl
  rintro window _ rfl
  refine .bind h.textEnded ?_
  rintro ended _ rfl
  cases ended with
  | true => exact .pure (.inr rfl)
  | false =>
    refine .bind (.gathered (h.stream rfl)) ?_
    rintro bytes _ rfl
    dsimp only
    split
    · exact .pure (.inr rfl)
    · exact .pure (.inl rfl)

variable [Bound.Tied]

namespace Bound

theorem number_agree (k : Nat) : Agree m (on k p.number) fun n => on k (puller n).number :=
  on_agree k h.number

theorem text_agree (k : Nat) : Agree m (on k (readAll p)) fun n => on k (readAll (puller n)) :=
  on_agree k (readAll_agree h)

theorem front_agree (k : Nat) (more : Bytes → Bool) :
    Agree m (on k (readWhile p more)) fun n => on k (readWhile (puller n) more) :=
  on_agree k (readWhile_agree h more)

theorem numbers_agree (f : Float → Float → Float) : Agree m (do
        let a ← on 0 p.number
        let b ← on 1 p.number
        return f a b)
      fun n => do
        let a ← on 0 (puller n).number
        let b ← on 1 (puller n).number
        return f a b := by
  refine .bind (number_agree h 0) ?_
  rintro a _ rfl
  refine .bind (number_agree h 1) ?_
  rintro b _ rfl
  exact .pure rfl

end Bound

open Bound in
theorem Calculation.run_agree (c : Calculation) : Agreed m p c.run := by
  cases c with
  | abs =>
    refine .bind (number_agree h 0) ?_
    rintro a _ rfl
    exact .pure rfl
  | add => exact numbers_agree h (· + ·)
  | sub => exact numbers_agree h (· - ·)
  | mul => exact numbers_agree h (· * ·)
  | div => exact numbers_agree h (· / ·)
  | leadingNumber =>
    refine .bind (front_agree h 0 _) ?_
    rintro bytes _ rfl
    exact .pure rfl
  | fromBase base =>
    refine .bind (text_agree h 0) ?_
    rintro bytes _ rfl
    exact .pure rfl
  | codePoint =>
    refine .bind (front_agree h 0 _) ?_
    rintro bytes _ rfl
    split
    · exact .pure rfl
    · exact .pure rfl
  | contains =>
    refine .bind (text_agree h 0) ?_
    rintro needle _ rfl
    split
    · exact .pure rfl
    · refine .bind (on_agree 1 (searchFor_agree h needle)) ?_
      rintro found _ rfl
      exact .pure rfl
  | startsWith =>
    refine .bind (text_agree h 0) ?_
    rintro needle _ rfl
    refine .bind (front_agree h 1 _) ?_
    rintro front _ rfl
    exact .pure rfl
  | endsWith =>
    refine .bind (text_agree h 0) ?_
    rintro needle _ rfl
    refine .bind (text_agree h 1) ?_
    rintro text _ rfl
    exact .pure rfl

open Bound in
theorem Rendering.run_agree (r : Rendering) : Agreed m p r.run := by
  cases r with
  | decimal =>
    refine .bind (number_agree h 0) ?_
    rintro n _ rfl
    exact .pure rfl
  | inBase base =>
    refine .bind (number_agree h 0) ?_
    rintro n _ rfl
    refine .bind (.ofOption fun _ _ => rfl) ?_
    rintro digits _ rfl
    exact .pure rfl
  | character =>
    refine .bind (number_agree h 0) ?_
    rintro n _ rfl
    split
    · split
      · exact .pure rfl
      · exact .fail _
    · exact .fail _

end PullScript
