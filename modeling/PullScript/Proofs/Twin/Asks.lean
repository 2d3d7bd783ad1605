import PullScript.Proofs.Twin.Work

namespace PullScript

open Act

def TextAsk.quiet : TextAsk → Bool
  | .ended | .takeNumber => true
  | .stream | .drain => false

/-- Twins answer questions alike, and stay twins. Questions that write need sinks that are the same. -/
structure Asks (ports : Bool) (p : Puller) : Prop where
  number {loud : Bool} : Agree ⟨ports, loud⟩ p.number fun n => (puller n).number
  text {loud : Bool} (ask : TextAsk) : loud = true ∨ ask.quiet = true →
    Agree ⟨ports, loud⟩ (p.pull (.text ask)) fun n => (puller n).pull (.text ask)
  list {loud : Bool} (ask : ListAsk) :
    Agree ⟨ports, loud⟩ (p.pull (.list ask)) fun n => (puller n).pull (.list ask)
  apply {loud : Bool} {x y : Value} : Value.Twin ports x y →
    Agree ⟨ports, loud⟩ (p.apply x) fun n => (puller n).apply y

/-- Work that asks through `p` on one side, and with enough fuel on the other. -/
abbrev Agreed {σ α : Type} [Twinned σ] [Twinned α] (m : Mode) (p : Puller) (act : Puller → Act σ α) : Prop :=
  Agree m (act p) fun n => act (puller n)

namespace Asks

variable {ports loud : Bool} {p : Puller}

section

variable (h : Asks ports p)
include h

theorem stream (hloud : loud = true) : Agreed ⟨ports, loud⟩ p (·.stream) :=
  h.text .stream (.inl hloud)

theorem drain (hloud : loud = true) : Agreed ⟨ports, loud⟩ p (·.drain) :=
  h.text .drain (.inl hloud)

theorem textEnded : Agreed ⟨ports, loud⟩ p (·.textEnded) :=
  h.text .ended (.inr rfl)

theorem takeNumber : Agreed ⟨ports, loud⟩ p (·.takeNumber) :=
  h.text .takeNumber (.inr rfl)

theorem current : Agreed ⟨ports, loud⟩ p (·.current) :=
  h.list .current

theorem advance : Agreed ⟨ports, loud⟩ p (·.advance) :=
  h.list .advance

theorem listEnded : Agreed ⟨ports, loud⟩ p (·.listEnded) :=
  h.list .ended

theorem rewind : Agreed ⟨ports, loud⟩ p (·.rewind) :=
  h.list .rewind

theorem count : Agreed ⟨ports, loud⟩ p (·.count) :=
  h.list .count

theorem next : Agreed ⟨ports, loud⟩ p (·.next) := by
  refine .bind h.listEnded ?_
  rintro ended _ rfl
  cases ended with
  | true => exact .pure .none
  | false =>
    refine .bind h.current fun item item' hitem => .bind (h.advance.holding (.singleton hitem)) ?_
    rintro _ _ -
    exact .pure (.some hitem)

end

end Asks

namespace Value.Twin

variable {ports : Bool} {a b : Value}

theorem recastTo (h : Twin ports a b) {wanted : Ty} (hwanted : wanted.kind = .lst) :
    Twin ports (a.recastTo wanted) (b.recastTo wanted) := by
  have htarget : (wanted.instantiated a.ty).kind = .lst := by
    cases wanted with
    | lst => rfl
    | _ => cases hwanted
  unfold Value.recastTo
  rw [← h.ty_eq]
  dsimp only
  split
  · exact h
  · exact .recast 0 htarget h

theorem ofNumber (h : Twin ports a b) : Twin ports (.ofNumber a) (.ofNumber b) :=
  .numberText {} (.some h)

theorem ofList (h : Twin ports a b) : Twin ports (.ofList a) (.ofList b) := by
  unfold Value.ofList
  rw [h.ty_eq]
  exact .listText _ false h .none

theorem clustersOf (h : Twin ports a b) : Twin ports (.clustersOf a) (.clustersOf b) :=
  .clusters {} h

end Value.Twin

theorem coerce_agree {σ : Type} [Twinned σ] [Holder σ] [TwinHolder σ] {m : Mode} {p : Puller}
    (h : Asks m.ports p) {value value' : Value} (hvalue : Value.Twin m.ports value value') (target : Ty) :
    Agree m (coerce p value target : Act σ Value)
      fun n => coerce (puller n) value' target := by
  have hkind' := hvalue.kind_eq.symm
  have hty := hvalue.ty_eq
  cases target <;> cases hkind : value.kind <;> rw [hkind] at hkind' <;>
    simp only [coerce, hkind, hkind', ← hty]
  case num.str =>
    refine .bind (h.takeNumber.aside hvalue) ?_
    rintro ⟨number, _⟩ ⟨number', _⟩ ⟨hnumber, -⟩
    cases hnumber with
    | none => exact .fail _
    | some hnumber => exact .pure hnumber
  case str.num => exact .pure hvalue.ofNumber
  case str.lst => exact .pure hvalue.ofList
  case lst.str => exact .pure (hvalue.clustersOf.recastTo rfl)
  case lst.lst => exact .pure (hvalue.recastTo rfl)
  -- What is left hands the value on or refuses it.
  all_goals first | exact .pure hvalue | exact .fail _

theorem requireKind_agree {m : Mode} (kind : Kind) : Agree m (requireKind kind) fun _ => requireKind kind := by
  refine .look fun value value' hvalue => ?_
  rw [Value.Twin.kind_eq hvalue, Value.Twin.ty_eq hvalue]
  split
  · exact .pure rfl hvalue
  · exact .fail _ hvalue

namespace Bound

variable {m : Mode} {α : Type} [Twinned α] [Tied]

theorem arg_agree (k : Nat) : Agree m (arg k) fun _ => arg k := by
  refine .look fun b b' hb => ?_
  obtain ⟨hname, -, hargs⟩ := id hb
  have harg := hargs.getElem? k
  rw [hname]
  generalize b.args[k]? = value at harg
  generalize b'.args[k]? = value' at harg
  cases harg with
  | none => exact .fail _ hb
  | some harg => exact .pure harg hb

theorem on_agree (k : Nat) {a : Act Value α} {b : Nat → Act Value α} (h : Agree m a b) :
    Agree m (on k a) fun n => on k (b n) :=
  .bind (arg_agree k) fun _ _ hvalue => .look fun _ _ ⟨hname, hty, hargs⟩ =>
    .within (h hvalue) fun _ _ hq => ⟨hname, hty, hargs.set k hq⟩

theorem applyArg_agree {m : Mode} {p : Puller} (h : Asks m.ports p) (k : Nat) {x y : Value}
    (hxy : Value.Twin m.ports x y) : Agree m (applyArg p k x) fun n => applyArg (puller n) k y :=
  on_agree k (.bind (requireKind_agree .fn) fun _ _ _ => h.apply hxy)

end Bound

section Reading

variable {m : Mode} {p : Puller} (h : Asks m.ports p)
include h

theorem readAll_agree : Agreed m p readAll :=
  .gathered (h.drain rfl)

theorem readWhile_agree (more : Bytes → Bool) : Agreed m p (readWhile · more) := by
  refine .bind (requireKind_agree .str) fun _ _ _ => .loop ?_ p.fuel rfl
  rintro buffer _ rfl
  split
  · exact .pure (.inr rfl)
  · refine .bind h.textEnded ?_
    rintro ended _ rfl
    cases ended with
    | true => exact .pure (.inr rfl)
    | false =>
      refine .bind (.gathered (h.stream rfl)) ?_
      rintro bytes _ rfl
      exact .pure (.inl rfl)

theorem skipItems_agree (n : Nat) : Agree m (skipItems p n) fun k => skipItems (puller k) n := by
  refine .bind (requireKind_agree .lst) fun _ _ _ => .loop ?_ p.fuel rfl
  rintro left _ rfl
  split
  · exact .pure (.inr rfl)
  · refine .bind h.listEnded ?_
    rintro ended _ rfl
    cases ended with
    | true => exact .pure (.inr rfl)
    | false => exact .bind h.advance fun _ _ _ => .pure (.inl rfl)

theorem drainItems_agree : Agreed m p drainItems := by
  refine .bind (requireKind_agree .lst) fun _ _ _ => .loop ?_ p.fuel Value.AllTwin.nil
  intro items items' hitems
  refine .bind (h.next.holding hitems) fun next next' hnext => ?_
  cases hnext with
  | none => exact .pure (.inr hitems)
  | some hitem => exact .pure (.inl (.cons hitem hitems))

end Reading

section Steps

variable {σ : Type} [Twinned σ] {m : Mode} {ended : Act σ Bool} {ended' : Nat → Act σ Bool}
  {rewind advance stream : Act σ Unit} {rewind' advance' stream' : Nat → Act σ Unit}

theorem countBySteps_agree (hrewind : Agree m rewind rewind') (hended : Agree m ended ended')
    (hadvance : Agree m advance advance') (fuel : Nat) : Agree m (countBySteps fuel rewind ended advance)
      fun n => countBySteps n (rewind' n) (ended' n) (advance' n) := by
  refine .bind hrewind fun _ _ _ => .bind (.loop ?_ fuel rfl) ?_
  · rintro n _ rfl
    refine .bind hended ?_
    rintro ended _ rfl
    cases ended with
    | true => exact .pure (.inr rfl)
    | false => exact .bind hadvance fun _ _ _ => .pure (.inl rfl)
  · rintro n _ rfl
    exact .bind hrewind fun _ _ _ => .pure rfl

theorem drainBySteps_agree (hended : Agree m ended ended') (hstream : Agree m stream stream')
    (fuel : Nat) : Agree m (drainBySteps fuel ended stream) fun n => drainBySteps n (ended' n) (stream' n) := by
  refine .loop ?_ fuel rfl
  rintro ⟨⟩ _ -
  refine .bind hended ?_
  rintro ended _ rfl
  cases ended with
  | true => exact .pure (.inr rfl)
  | false => exact .bind hstream fun _ _ _ => .pure (.inl rfl)

end Steps

end PullScript
