import PullScript.Proofs.Twin.Lists
import PullScript.Proofs.Twin.Numbers

namespace PullScript

open Act

variable {b b' : Bound} {x y : Value} {builtin : Builtin}

variable {m : Mode} {p : Puller} (h : Asks m.ports p)
include h

namespace Choice

variable [Bound.Tied]

theorem find_agree (choice : Choice) : Agreed m p choice.find := by
  cases choice with
  | head =>
    refine Bound.on_agree 0 (.bind h.listEnded ?_)
    rintro ended _ rfl
    cases ended with
    | true => exact .bind (.fail _) fun _ _ _ => h.current
    | false => exact h.current
  | last =>
    refine Bound.on_agree 0 (.bind (requireKind_agree .lst) fun _ _ _ => .bind (.loop ?_ p.fuel
      Value.OptionTwin.none) fun item item' hitem => ?_)
    · intro item item' hitem
      refine .bind (h.next.holding hitem.held_twin) fun next next' hnext => ?_
      cases hnext with
      | none => exact .pure (.inr hitem)
      | some hnext => exact .pure (.inl (.some hnext))
    · cases hitem with
      | none => exact .fail _
      | some hitem => exact .pure hitem
  | index =>
    refine .bind (Bound.on_agree 1 h.number) ?_
    rintro n _ rfl
    have hitem : Agree m (Bound.on 0 do
          skipItems p (countOf n)
          if ← p.listEnded then fail (.runtime (.indexOutOfRange n))
          p.current)
        fun k => (Bound.on 0 do
          skipItems (puller k) (countOf n)
          if ← (puller k).listEnded then fail (.runtime (.indexOutOfRange n))
          (puller k).current) := by
      refine Bound.on_agree 0 (.bind (skipItems_agree h _) fun _ _ _ => .bind h.listEnded ?_)
      rintro ended _ rfl
      cases ended with
      | true => exact .bind (.fail _) fun _ _ _ => h.current
      | false => exact h.current
    dsimp only
    split
    · exact .bind (.fail _) fun _ _ _ => hitem
    · exact hitem

theorem onItem_agree {α : Type} [Twinned α] (choice : Choice) {act : Act Value α} {act' : Nat → Act Value α}
    (hact : Agree m act act') :
    Agree m (choice.onItem p act) fun n => choice.onItem (puller n) (act' n) := by
  refine .look ?_
  rintro ⟨b, item⟩ ⟨b', item'⟩ ⟨hb, hitem⟩
  cases hitem with
  | some hitem => exact .look (.within (hact hitem) fun _ _ hq => ⟨hb, .some hq⟩)
  | none =>
    refine .bind (Agree.onFirst (find_agree h choice) ⟨hb, .none⟩) fun item item' s t hitem hst => .look ?_
    rw [hst.1.2.1.1, hst.1.2.1.2]
    refine .bind (coerce_agree h hitem _ hst) fun item item' s t hitem hst => .change (.look ?_)
    exact .within (hact hitem) fun _ _ hq => ⟨hst.1, .some hq⟩

theorem chooseFrom_agree {σ : Type} [Twinned σ] [Holder σ] [TwinHolder σ] (choice : Choice) (hb : twin m.ports b b') :
    Agree m (choice.chooseFrom p b : Act σ Value) fun n => choice.chooseFrom (puller n) b' := by
  unfold chooseFrom
  rw [hb.2.1.1, hb.2.1.2]
  refine .bind (.aside (.bind (find_agree h choice) fun _ _ hitem => coerce_agree h hitem _) hb) ?_
  exact fun _ _ hresult => .pure hresult.1

theorem apply_agree (choice : Choice) (hxy : Value.Twin m.ports x y) :
    Agree m (choice.apply p x) fun n => choice.apply (puller n) y := by
  refine .look ?_
  rintro ⟨b, item⟩ ⟨b', item'⟩ ⟨hb, hitem⟩
  cases hitem with
  | some hitem => exact .look (.within (h.apply hxy hitem) fun _ _ hq => ⟨hb, .some hq⟩)
  | none =>
    have hcopies : twin m.ports { b with args := Value.copyAll b.args } { b' with args := Value.copyAll b'.args } :=
      ⟨hb.1, hb.2.1, hb.2.2.copy⟩
    refine .look (.bind ((chooseFrom_agree h choice hcopies).holding (.singleton hxy) ⟨hb, .none⟩) ?_)
    intro item item' s t hitem hst
    exact .change (.look (.within (h.apply hxy hitem) fun _ _ hq => ⟨hst.1, .some hq⟩))

/-- What a choice that is asked for a number ends with: one that fails gives none. -/
def settled : Act.Result (Bound × Option Value) (Option Value.Numeric) →
    Act.Result (Bound × Option Value) (Option Value.Numeric)
  | .error (.failed _) s => .ok none s
  | result => result

theorem takeNumber_agree (choice : Choice) : Agreed m p choice.takeNumber := by
  intro s t hst w w' hw
  have hleft : choice.takeNumber p (s, w) = settled (choice.onItem p p.takeNumber (s, w)) := rfl
  have hright (n : Nat) : choice.takeNumber (puller n) (t, w') =
      settled (choice.onItem (puller n) (puller n).takeNumber (t, w')) := rfl
  refine (onItem_agree h choice h.takeNumber hst w w' hw).through (fun s => ⟨s, rfl⟩) (fun s => ⟨s, rfl⟩)
    hleft hright fun ra rb hr => ?_
  cases hr with
  | ok hxy hst' hw' => exact .ok hxy hst' hw'
  | failed error hst' hw' => exact .ok .none hst' hw'

end Choice

theorem Bound.give_agree [Tied] (k : Nat) (how : Handing) (hhow : how ≠ .description) :
    Agreed m p (give · k how) := by
  have hcopy (kind : Kind) : Agree m (do
        requireKind kind
        return (← look).copy)
      fun _ => (do
        requireKind kind
        return (← look).copy) :=
    .bind (requireKind_agree kind) fun _ _ _ => .look fun _ _ hvalue => .pure (Value.Twin.copy hvalue) hvalue
  cases how with
  | itself => exact arg_agree k
  | copy => exact .bind (arg_agree k) fun _ _ hvalue => .pure hvalue.copy
  | number =>
    refine .bind (on_agree k h.number) ?_
    rintro n _ rfl
    exact .pure (.number n)
  | text =>
    refine .bind (on_agree k (readAll_agree h)) ?_
    rintro bytes _ rfl
    exact .pure (.text bytes false)
  | list => exact on_agree k (hcopy .lst)
  | function => exact on_agree k (hcopy .fn)
  | description => exact absurd rfl hhow

omit h in
theorem Job.start_twin {job : Job} {task : Task Value} (hjob : job.start = .inr task) :
    Value.TaskTwin m.ports task task := by
  cases job <;> cases hjob
  case join => exact .join
  case init => exact .init false .none
  case reverse => exact .reverse 0
  case pick choice => exact .pick choice .none
  all_goals exact .same rfl

section Builtins

variable {σ : Type} [Twinned σ] [Holder σ] [TwinHolder σ]

theorem finish_agree (hname : b.name = b'.name) (hty : b.ty = b'.ty) (hargs : Value.AllTwin m.ports b.args b'.args)
    (hsuits : b.ty.suits builtin.job.wanted = true) (hjob : ∀ k, builtin.job ≠ .give .description k) :
    Agree m (finish p builtin b : Act σ Value) fun n => finish (puller n) builtin b' := by
  unfold finish
  cases hstart : builtin.job.start with
  | inl handing =>
    obtain ⟨how, position⟩ := handing
    have hhow : how ≠ .description := by
      rintro rfl
      refine hjob position ?_
      cases hgive : builtin.job <;> rw [hgive] at hstart <;> cases hstart
      rfl
    letI : Bound.Tied := ⟨b.ty⟩
    have hb : twin m.ports b b' := ⟨hname, ⟨rfl, hty.symm⟩, hargs⟩
    exact .bind ((Bound.give_agree h position how hhow).aside hb) fun _ _ hvalue => .pure hvalue.1
  | inr task =>
    obtain ⟨name, ty, args⟩ := b
    obtain ⟨_, _, args'⟩ := b'
    obtain rfl : name = _ := hname
    obtain rfl : ty = _ := hty
    have hwanted : builtin.job.wanted = task.wanted := by rw [Job.wanted, hstart]
    exact .pure (.suspended (hwanted ▸ hsuits) hargs (Job.start_twin hstart))

theorem applyCurried_agree {ty : Ty} {args args' : List Value} (hready : builtin.Ready ty args.length)
    (hargs : Value.AllTwin m.ports args args') (hxy : Value.Twin m.ports x y) :
    Agree m (applyCurried p builtin ty args x : Act σ Value)
      fun n => applyCurried (puller n) builtin ty args' y := by
  obtain ⟨hwaits, hleads, hjob⟩ := hready
  obtain ⟨more, hmore⟩ : ∃ more, builtin.arity - args.length = more + 1 :=
    ⟨builtin.arity - args.length - 1, by omega⟩
  rw [hmore] at hleads
  cases ty with
  | arrow wanted result =>
    refine .bind (coerce_agree h hxy wanted) fun x y hxy => ?_
    have hall : Value.AllTwin m.ports (Value.copyAll args ++ [x]) (Value.copyAll args' ++ [y]) :=
      hargs.copy.append (.singleton hxy)
    have hlength : (Value.copyAll args ++ [x]).length = args.length + 1 := by simp [Value.length_copyAll]
    have hresult : ((Ty.Match.find {} x.ty wanted).build result).leadsTo builtin.job.wanted more = true :=
      Ty.leadsTo_build builtin.job.wanted_ne_unknown _ hleads
    simp only [Ty.applied?, Option.getD_some, ← hxy.ty_eq, ← hall.length_eq]
    split
    next hfew => exact .pure (.curried ⟨hfew, by rwa [hlength, show builtin.arity - (args.length + 1) = more by omega],
      hjob⟩ hall)
    next hfull =>
      obtain rfl : more = 0 := by omega
      exact finish_agree h rfl rfl hall hresult hjob
  | _ => cases hleads

end Builtins

theorem applyStages_agree (hxy : Value.Twin m.ports x y) (stages stages' : List Value)
    (hstages : Value.AllTwin m.ports stages stages') :
    AgreeFrom m stages stages' (applyStages p x stages) fun n => applyStages (puller n) y stages' := by
  induction stages generalizing x y stages' with
  | nil =>
    cases hstages
    exact .pure hxy Value.AllTwin.nil
  | cons stage rest ih =>
    cases hstages with
    | cons hstage hrest =>
      refine .bind (.within (h.apply hxy hstage) fun _ _ hq => .cons hq hrest) fun z z' s t hz hst => .look ?_
      refine .within (ih hz _ hrest) fun q q' hq => .cons ?_ hq
      cases hst with
      | nil => exact hstage
      | cons hfirst => exact hfirst

theorem applyFlipped_agree [Bound.Tied] (hxy : Value.Twin m.ports x y) :
    Agree m (applyFlipped p x) fun n => applyFlipped (puller n) y := by
  refine .bind (Bound.arg_agree 1) fun second second' hsecond => ?_
  refine .bind ((Bound.applyArg_agree h 0 hxy).holding (.singleton hsecond.copy)) fun half half' hhalf => ?_
  exact .bind ((h.apply hsecond.copy).aside hhalf) fun _ _ hresult => .pure hresult.1

theorem applyOutput_agree {σ : Type} [Twinned σ] [Holder σ] [TwinHolder σ] (hports : m.ports = true) (sink : Nat)
    (hxy : Value.Twin m.ports x y) :
    Agree m (applyOutput p sink x : Act σ Value) fun n => applyOutput (puller n) sink y := by
  refine .bind (coerce_agree h hxy (.str false)) fun text text' htext => ?_
  exact .bind ((Agree.intoSink sink hports (h.drain rfl)).aside htext) fun _ _ _ => .pure (.text [] false)

end PullScript
