import PullScript.Proofs.Twin.Functions
import PullScript.Proofs.Twin.Texts

namespace PullScript

open Act

variable {w w' v v' : World} {task task' : Task Value} {doc : String} {n : Nat}

/-- A question with some fuel: values of its kind do the work `fitting`, others refuse. -/
structure Poses {α : Type} (ask : Ask) (act : Nat → Act Value α) (fitting : Puller → Act Value α) : Prop where
  zero : act 0 = outOfFuel
  succ : ∀ n, act (n + 1) = requireFor ask >>= fun _ => fitting (puller n)
  named : ∀ n name doc value w, fitting (puller n) (.defined name doc value, w) =
    within value (.defined name doc) (act n) (.defined name doc value, w)

namespace Poses

theorem number : Poses .number (fun n => (puller n).number) answerNumber :=
  ⟨rfl, fun _ => rfl, fun _ _ _ _ _ => rfl⟩

theorem text (ask : TextAsk) :
    Poses (.text ask) (fun n => (puller n).pull (.text ask)) (fun p => answerText p ask) :=
  ⟨rfl, fun _ => rfl, fun _ _ _ _ _ => rfl⟩

theorem list (ask : ListAsk) :
    Poses (.list ask) (fun n => (puller n).pull (.list ask)) (fun p => answerList p ask) :=
  ⟨rfl, fun _ => rfl, fun _ _ _ _ _ => rfl⟩

theorem apply (x : Value) : Poses (.apply x) (fun n => (puller n).apply x) (fun p => answerApply p x) :=
  ⟨rfl, fun _ => rfl, fun _ _ _ _ _ => rfl⟩

variable {α : Type} {ask : Ask} {act : Nat → Act Value α} {fitting : Puller → Act Value α}
  (h : Poses ask act fitting) {a : Value}
include h

theorem run_fitting (hkind : a.kind = ask.kind) (n : Nat) (w : World) :
    act (n + 1) (a, w) = fitting (puller n) (a, w) := by
  have hrequire : requireFor ask (a, w) = .ok () (a, w) := by
    change (if a.kind = ask.kind then _ else _ : Act Value Unit) (a, w) = _
    rw [if_pos hkind]
    rfl
  rw [h.succ, bind_of_ok hrequire]

theorem run_refused (hkind : a.kind ≠ ask.kind) (n : Nat) (w : World) :
    act (n + 1) (a, w) = .error (.failed (.typeMismatch a.ty ask.wantedTy)) (a, w) := by
  have hrequire : requireFor ask (a, w) = .error (.failed (.typeMismatch a.ty ask.wantedTy)) (a, w) := by
    change (if a.kind = ask.kind then _ else _ : Act Value Unit) (a, w) = _
    rw [if_neg hkind]
    rfl
  rw [h.succ, bind_of_error hrequire]

theorem comes_later {result : Act.Result Value α} {work : Nat → Act Value α} (hcomes : Comes work (a, w) result)
    (hwork : ∀ n, act (n + 1) (a, w) = work n (a, w)) : Comes act (a, w) result :=
  hcomes.later ⟨_, by rw [h.zero]; rfl⟩ hwork

end Poses

variable {α : Type} [Twinned α] {m : Mode} {ports : Bool} {p : Puller}

section Suspended

variable {τ : Type} [Inhabited τ] [Twinned τ] {name : String} {ty : Ty} {args args' : List Value} {s t : Value}

omit [Twinned α] [Inhabited τ] [Twinned τ] in
theorem Value.Twin.suspend [Bound.Tied] {b b' : Bound} (hb : twin ports b b')
    (hsuits : Bound.Tied.ty.suits task.wanted = true) (htask : Value.TaskTwin ports task task') :
    Value.Twin ports (b.suspend task) (b'.suspend task') := by
  obtain ⟨name, ty, args⟩ := b
  obtain ⟨name', ty', args'⟩ := b'
  obtain ⟨hname, ⟨hty, hty'⟩, hargs⟩ := hb
  obtain rfl : name = name' := hname
  obtain rfl : ty = Bound.Tied.ty := hty
  obtain rfl : ty' = Bound.Tied.ty := hty'
  exact .suspended hsuits hargs htask

theorem onTask_agree (task : τ → Task Value) {state state' : τ} (hstate : twin m.ports state state')
    (hargs : Value.AllTwin m.ports args args') (hsuits : ∀ state, ty.suits (task state).wanted = true)
    (htask : ∀ state state', twin m.ports state state' → Value.TaskTwin m.ports (task state) (task state'))
    {act : Act (Bound × τ) α} {act' : Nat → Act (Bound × τ) α} (hact : ∀ _ : Bound.Tied, Agree m act act') :
    AgreeFrom m s t (onTask ⟨name, ty, args⟩ state task act)
      fun n => onTask ⟨name, ty, args'⟩ state' task (act' n) := by
  letI : Bound.Tied := ⟨ty⟩
  have hstart : twin m.ports ((⟨name, ty, args⟩ : Bound), state) ((⟨name, ty, args'⟩ : Bound), state') :=
    ⟨⟨rfl, ⟨rfl, rfl⟩, hargs⟩, hstate⟩
  exact .withinUses (hact _ hstart) rfl fun _ _ hq => .suspend hq.1 (hsuits _) (htask _ _ hq.2)

theorem onData_agree {τ : Type} [Inhabited τ] [Data τ] (task : τ → Task Value)
    (hdata : ∀ state, (task state).keepsValues = false) {state : τ} (hargs : Value.AllTwin m.ports args args')
    (hsuits : ∀ state, ty.suits (task state).wanted = true) {act : Act (Bound × τ) α} {act' : Nat → Act (Bound × τ) α}
    (hact : ∀ _ : Bound.Tied, Agree m act act') :
    AgreeFrom m s t (onTask ⟨name, ty, args⟩ state task act) fun n => onTask ⟨name, ty, args'⟩ state task (act' n) :=
  onTask_agree task rfl hargs hsuits (fun state _ hstate => hstate ▸ .same (hdata state)) hact

theorem onArgs_agree (hargs : Value.AllTwin m.ports args args') (hsuits : ty.suits task.wanted = true)
    (htask : Value.TaskTwin m.ports task task) {act : Act Bound α} {act' : Nat → Act Bound α}
    (hact : ∀ _ : Bound.Tied, Agree m act act') :
    AgreeFrom m s t (onArgs ⟨name, ty, args⟩ task act) fun n => onArgs ⟨name, ty, args'⟩ task (act' n) := by
  letI : Bound.Tied := ⟨ty⟩
  have hstart : twin m.ports (⟨name, ty, args⟩ : Bound) (⟨name, ty, args'⟩ : Bound) :=
    ⟨rfl, ⟨rfl, rfl⟩, hargs⟩
  exact .withinUses (hact _ hstart) rfl fun _ _ hq => .suspend hq hsuits htask

end Suspended

theorem Value.TaskTwin.ofJoiner {joiner joiner' : Option (Joiner Value)} (h : twin ports joiner joiner') :
    Value.TaskTwin ports (.join joiner) (.join joiner') := by
  cases h with
  | none => exact .join
  | @some j j' h =>
    obtain ⟨separator, item, started⟩ := j
    obtain ⟨separator', item', started'⟩ := j'
    obtain ⟨hseparator, hitem, hstarted⟩ := h
    obtain rfl : separator = separator' := hseparator
    obtain rfl : started = started' := hstarted
    exact .joining separator started hitem

theorem Value.TaskTwin.ofInit {state state' : Init Value} (h : twin ports state state') :
    Value.TaskTwin ports (.init state) (.init state') := by
  obtain ⟨held, started⟩ := state
  obtain ⟨held', started'⟩ := state'
  obtain ⟨hheld, hstarted⟩ := h
  obtain rfl : started = started' := hstarted
  exact .init started hheld

theorem Value.TaskTwin.ofReverse {state state' : Reverse Value} (h : twin ports state state') :
    Value.TaskTwin ports (.reverse state) (.reverse state') := by
  obtain ⟨items, position⟩ := state
  obtain ⟨items', position'⟩ := state'
  obtain ⟨hitems, hposition⟩ := h
  obtain rfl : position = position' := hposition
  cases hitems with
  | none => exact .reverse position
  | some hitems => exact .reversing position hitems

def Value.Plain : Value → Prop
  | .defined .. => False
  | _ => True

section Answers

variable (h : Asks m.ports p) {a b : Value}
include h

theorem calculated_agree [Bound.Tied] (c : Calculation) : Agreed m p (calculated · c) := by
  refine .look ?_
  rintro ⟨b, known⟩ ⟨b', _⟩ ⟨hb, rfl⟩
  cases known with
  | some n => exact .pure rfl ⟨hb, rfl⟩
  | none =>
    refine .bind (Agree.onFirst (c.run_agree h) ⟨hb, rfl⟩) ?_
    rintro n _ s t rfl hst
    exact .change (.pure rfl ⟨hst.1, rfl⟩)

theorem answerNumber_agree (hab : Value.Twin m.ports a b) (ha : a.Plain) (hb : b.Plain) (hkind : a.kind = .num) :
    AgreeFrom m a b (answerNumber p) fun n => answerNumber (puller n) := by
  refine .look ?_
  cases hab with
  | number n => exact .pure rfl (.number n)
  | metered meter hports => exact Agree.readMeter meter hports (.metered meter hports)
  | @suspended name ty args args' task task' hsuits hargs htask =>
    cases htask with
    | same hkeeps =>
      cases task with
      | calculate c known =>
        exact onData_agree (.calculate c) (fun _ => rfl) hargs (fun _ => hsuits) fun _ => calculated_agree h c
      | pick => cases hkeeps
      | _ => cases hkind
    | pick choice hitem =>
      exact onTask_agree (.pick choice) hitem hargs (fun _ => rfl) (fun _ _ hitem => .pick choice hitem)
        fun _ => choice.onItem_agree h h.number
    | _ => cases hkind
  | definedLeft => cases ha
  | definedRight => cases hb
  | _ => cases hkind

theorem answerChosenText_agree [Bound.Tied] (choice : Choice) (ask : TextAsk) (hask : ask.Fits m.loud) :
    Agreed m p (answerChosenText · choice ask) := by
  cases ask with
  | takeNumber => exact choice.takeNumber_agree h
  | _ => exact choice.onItem_agree h (h.text _ hask)

theorem answerSuspendedText_agree {name : String} {ty : Ty} {args args' : List Value} (ask : TextAsk)
    (hask : ask.Fits m.loud) (hsuits : ty.suits task.wanted = true) (hargs : Value.AllTwin m.ports args args')
    (htask : Value.TaskTwin m.ports task task') (hkind : task.kind ty = .str) :
    AgreeFrom m (.suspended name ty args task) (.suspended name ty args' task')
      (answerText p ask) fun n => answerText (puller n) ask := by
  refine .look ?_
  cases htask with
  | same hkeeps =>
    cases task with
    | render r once =>
      exact onData_agree (.render r) (fun _ => rfl) hargs (fun _ => hsuits)
        fun _ => Once.answer_agree (r.run_agree h) (.pure .none) ask hask
    | encode e => exact onArgs_agree hargs hsuits (.same rfl) fun _ => answerEncoding_agree h e ask hask
    | concat state =>
      exact onData_agree .concat (fun _ => rfl) hargs (fun _ => hsuits) fun _ => Concat.answer_agree h ask hask
    | join => cases hkeeps
    | pick => cases hkeeps
    | _ => cases hkind
  | join =>
    exact onTask_agree .join Twinned.JoinerTwin.none hargs (fun _ => hsuits) (fun _ _ => .ofJoiner)
      fun _ => Joiner.answerJoin_agree h ask hask
  | joining separator started hitem =>
    refine onTask_agree .join ?_ hargs (fun _ => hsuits) (fun _ _ => .ofJoiner)
      fun _ => Joiner.answerJoin_agree h ask hask
    exact .some ⟨rfl, hitem, rfl⟩
  | pick choice hitem =>
    exact onTask_agree (.pick choice) hitem hargs (fun _ => rfl) (fun _ _ hitem => .pick choice hitem)
      fun _ => answerChosenText_agree h choice ask hask
  | _ => cases hkind

theorem answerText_agree (ask : TextAsk) (hask : ask.Fits m.loud) (hab : Value.Twin m.ports a b) (ha : a.Plain)
    (hb : b.Plain) (hkind : a.kind = .str) :
    AgreeFrom m a b (answerText p ask) fun n => answerText (puller n) ask := by
  cases hab with
  | text bytes read =>
    exact .look <| .zoom (answerLiteral_agree bytes ask hask rfl) fun read _ hread => hread ▸ .text bytes read
  | chunks parts position =>
    exact .look <| .zoom (answerChunks_agree p.fuel parts ask hask rfl)
      fun position _ hposition => hposition ▸ .chunks parts position
  | input tap offset primary hports =>
    exact .look <| .zoom (answerInput_agree hports p.fuel tap ask hask rfl)
      fun offset _ hoffset => hoffset ▸ .input tap offset primary hports
  | numberText once hsource =>
    refine .look <| .within (answerNumberText_agree h ask hask ⟨hsource, rfl⟩) ?_
    rintro ⟨source, once⟩ ⟨source', _⟩ ⟨hsource, rfl⟩
    exact .numberText once hsource
  | listText separator started hsource hitem =>
    refine .look <| .within (Joiner.answer_agree h ask hask ⟨⟨rfl, hitem, rfl⟩, hsource⟩) ?_
    rintro ⟨⟨separator, item, started⟩, source⟩ ⟨⟨_, item', _⟩, source'⟩ ⟨⟨rfl, hitem, rfl⟩, hsource⟩
    exact .listText separator started hsource hitem
  | suspended hsuits hargs htask => exact answerSuspendedText_agree h ask hask hsuits hargs htask hkind
  | definedLeft => cases ha
  | definedRight => cases hb
  | _ => cases hkind

theorem answerSuspendedList_agree {name : String} {ty : Ty} {args args' : List Value} (ask : ListAsk)
    (hsuits : ty.suits task.wanted = true) (hargs : Value.AllTwin m.ports args args')
    (htask : Value.TaskTwin m.ports task task') (hkind : task.kind ty = .lst) :
    AgreeFrom m (.suspended name ty args task) (.suspended name ty args' task')
      (answerList p ask) fun n => answerList (puller n) ask := by
  refine .look ?_
  cases htask with
  | same hkeeps =>
    cases task with
    | bytes ahead =>
      exact onData_agree .bytes (fun _ => rfl) hargs (fun _ => hsuits) fun _ => ByteList.answer_agree h ask
    | units unit cutter =>
      exact onData_agree (.units unit) (fun _ => rfl) hargs (fun _ => hsuits) fun _ => answerUnits_agree h unit ask
    | split splitter =>
      exact onData_agree .split (fun _ => rfl) hargs (fun _ => hsuits) fun _ => Splitter.answer_agree h ask
    | map => exact onArgs_agree hargs hsuits (.same rfl) fun _ => answerMap_agree h ask
    | «repeat» => exact onArgs_agree hargs hsuits (.same rfl) fun _ => answerRepeat_agree ask
    | zipWith => exact onArgs_agree hargs hsuits (.same rfl) fun _ => ZipWith.answer_agree h ask
    | take state =>
      exact onData_agree .take (fun _ => rfl) hargs (fun _ => hsuits) fun _ => Take.answer_agree h ask
    | drop skipped =>
      exact onData_agree .drop (fun _ => rfl) hargs (fun _ => hsuits) fun _ => Drop.answer_agree h ask
    | tail started =>
      exact onData_agree .tail (fun _ => rfl) hargs (fun _ => hsuits) fun _ => Tail.answer_agree h ask
    | init => cases hkeeps
    | reverse => cases hkeeps
    | pick => cases hkeeps
    | _ => cases hkind
  | init started hheld =>
    refine onTask_agree .init ?_ hargs (fun _ => hsuits) (fun _ _ => .ofInit) fun _ => Init.answer_agree h ask
    exact ⟨hheld, rfl⟩
  | reverse position =>
    refine onTask_agree .reverse ?_ hargs (fun _ => hsuits) (fun _ _ => .ofReverse)
      fun _ => Reverse.answer_agree h ask
    exact ⟨.none, rfl⟩
  | reversing position hitems =>
    refine onTask_agree .reverse ?_ hargs (fun _ => hsuits) (fun _ _ => .ofReverse)
      fun _ => Reverse.answer_agree h ask
    exact ⟨.some hitems, rfl⟩
  | pick choice hitem =>
    exact onTask_agree (.pick choice) hitem hargs (fun _ => rfl) (fun _ _ hitem => .pick choice hitem)
      fun _ => choice.onItem_agree h (h.list ask)
  | _ => cases hkind

theorem answerList_agree (ask : ListAsk) (hab : Value.Twin m.ports a b) (ha : a.Plain) (hb : b.Plain)
    (hkind : a.kind = .lst) : AgreeFrom m a b (answerList p ask) fun n => answerList (puller n) ask := by
  cases hab with
  | list elements position hitems =>
    exact .look <| .zoom (answerItems_agree hitems ask rfl)
      fun position _ hposition => hposition ▸ .list elements position hitems
  | recast position hty hsource =>
    refine .look <| .within (answerRecast_agree h _ ask ⟨hsource, rfl⟩) ?_
    rintro ⟨source, position⟩ ⟨source', _⟩ ⟨hsource, rfl⟩
    exact .recast position hty hsource
  | clusters cutter hsource =>
    refine .look ?_
    dsimp only
    rw [hsource.clustersOf.ty_eq]
    refine .within (Cutter.answer_agree h _ .grapheme ask ⟨rfl, hsource⟩) ?_
    rintro ⟨cutter, source⟩ ⟨_, source'⟩ ⟨rfl, hsource⟩
    exact .clusters cutter hsource
  | suspended hsuits hargs htask => exact answerSuspendedList_agree h ask hsuits hargs htask hkind
  | definedLeft => cases ha
  | definedRight => cases hb
  | _ => cases hkind

theorem answerApply_agree {x y : Value} (hxy : Value.Twin m.ports x y) (hab : Value.Twin m.ports a b) (ha : a.Plain)
    (hb : b.Plain) (hkind : a.kind = .fn) :
    AgreeFrom m a b (answerApply p x) fun n => answerApply (puller n) y := by
  cases hab with
  | chain hty hstages =>
    exact .look <| .within (applyStages_agree h hxy _ _ hstages) fun _ _ hq => .chain hty hq
  | output sink hports => exact .look (applyOutput_agree h hports sink hxy (.output sink hports))
  | curried hready hargs => exact .look (applyCurried_agree h hready hargs hxy (.curried hready hargs))
  | @suspended name ty args args' task task' hsuits hargs htask =>
    refine .look ?_
    cases htask with
    | same hkeeps =>
      cases task with
      | const =>
        exact onArgs_agree hargs hsuits (.same rfl)
          fun _ => .bind (Bound.arg_agree 0) fun _ _ hvalue => .pure hvalue.copy
      | flip => exact onArgs_agree hargs hsuits (.same rfl) fun _ => applyFlipped_agree h hxy
      | pick => cases hkeeps
      | _ => cases hkind
    | pick choice hitem =>
      exact onTask_agree (.pick choice) hitem hargs (fun _ => rfl) (fun _ _ hitem => .pick choice hitem)
        fun _ => choice.apply_agree h hxy
    | _ => cases hkind
  | definedLeft => cases ha
  | definedRight => cases hb
  | _ => cases hkind

end Answers

section Named

variable {a b : Value} {act : Act Value α} {act' : Nat → Act Value α}

/-- The world while a value is asked that was given a name. The name holds nothing. -/
def World.named (w : World) (name doc : String) : World :=
  { w with around := held (Value.defined name doc default) :: w.around }

theorem World.Later.nameLeft (hw : Twin m w w') {name : String} (h : Later m (w.named name doc) w' v v') :
    Later m w w' { v with around := w.around } v' := by
  refine ⟨⟨h.twin.out, h.twin.taps, h.twin.sinks, h.twin.meters, fun hports tap => ?_⟩, rfl, h.right⟩
  have haround := hw.around hports tap
  simpa only [offsetsAround, h.right] using haround

theorem World.Later.nameRight (hw : Twin m w w') {name : String} (h : Later m w (w'.named name doc) v v') :
    Later m w w' v { v' with around := w'.around } := by
  refine ⟨⟨h.twin.out, h.twin.taps, h.twin.sinks, h.twin.meters, fun hports tap => ?_⟩, h.left, rfl⟩
  have haround := hw.around hports tap
  simpa only [offsetsAround, h.left] using haround

theorem AgreeFrom.nameLeft (h : AgreeFrom m a b act act') (name doc : String) {s : Value} :
    AgreeFrom m s b (Act.within a (.defined name doc) act) act' := by
  intro w w' hw
  have hnamed : World.Twin m (w.named name doc) w' := ⟨hw.out, hw.taps, hw.sinks, hw.meters, hw.around⟩
  refine (h _ _ hnamed).through (fun _ => ⟨_, rfl⟩) (fun s => ⟨s, rfl⟩) (within_run ..)
    (fun _ => (id_eq _).symm) fun ra rb hr => ?_
  cases hr with
  | ok hxy hst hv => exact .ok hxy (.definedLeft name doc hst) (hv.nameLeft hw)
  | failed error hst hv => exact .failed error (.definedLeft name doc hst) (hv.nameLeft hw)

theorem AgreeFrom.nameRight (h : AgreeFrom m a b act act') (name doc : String) {t : Value} :
    AgreeFrom m a t act fun n => Act.within b (.defined name doc) (act' n) := by
  intro w w' hw
  have hnamed : World.Twin m w (w'.named name doc) := ⟨hw.out, hw.taps, hw.sinks, hw.meters, hw.around⟩
  refine (h _ _ hnamed).through (fun s => ⟨s, rfl⟩) (fun _ => ⟨_, rfl⟩) (id_eq _).symm
    (fun _ => within_run ..) fun ra rb hr => ?_
  cases hr with
  | ok hxy hst hv => exact .ok hxy (.definedRight name doc hst) (hv.nameRight hw)
  | failed error hst hv => exact .failed error (.definedRight name doc hst) (hv.nameRight hw)

end Named

section Asked

variable {ask ask' : Ask} {act act' : Nat → Act Value α} {fitting fitting' : Puller → Act Value α} {a b : Value}

theorem Poses.agree_refused (h : Poses ask act fitting) (h' : Poses ask' act' fitting')
    (hkinds : ask.kind = ask'.kind) (hwanted : ask.wantedTy = ask'.wantedTy) (hab : Value.Twin m.ports a b)
    (hkind : a.kind ≠ ask.kind) (n : Nat) : AgreeFrom m a b (act (n + 1)) act' := by
  intro w w' hw
  have hright := h'.run_refused (hkinds ▸ hab.kind_eq ▸ hkind) (w := w')
  have hcomes := h'.comes_later (.of_eq fun _ => rfl) hright
  rw [← hab.ty_eq, ← hwanted] at hcomes
  refine .inr ⟨_, hcomes, ?_⟩
  rw [h.run_refused hkind]
  exact .failed _ hab (.refl hw)

/-- Twins answer a question alike when twins without a name do, and those behind a name with less fuel.
By recursion on the names on the right. -/
theorem Poses.agree_fitting (h : Poses ask act fitting) (h' : Poses ask' act' fitting')
    (hkinds : ask.kind = ask'.kind) (hless : Agree m (act n) act')
    (hplain : ∀ {a b : Value}, Value.Twin m.ports a b → a.Plain → b.Plain → a.kind = ask.kind →
      AgreeFrom m a b (fitting (puller n)) fun k => fitting' (puller k)) :
    ∀ {a b : Value}, Value.Twin m.ports a b → a.kind = ask.kind → AgreeFrom m a b (act (n + 1)) act'
  | _, _, .definedLeft name doc hab, hkind =>
    ((hless hab).nameLeft name doc).congr (fun w => (h.run_fitting hkind n w).trans (h.named ..)) fun _ _ => rfl
  | a, .defined _ _ b, .definedRight name doc hab, hkind => by
    have hinner := (agree_fitting h h' hkinds hless hplain hab hkind).nameRight name doc
      (t := .defined name doc b)
    intro w w' hw
    refine (hinner w w' hw).imp_right fun ⟨result, hcomes, hresult⟩ => ⟨result, ?_, hresult⟩
    exact h'.comes_later hcomes fun k =>
      (h'.run_fitting (hkinds ▸ hab.kind_eq ▸ hkind) k w').trans (h'.named ..)
  | _, _, hab@(.number _), hkind | _, _, hab@(.metered ..), hkind | _, _, hab@(.text ..), hkind
  | _, _, hab@(.chunks ..), hkind | _, _, hab@(.input ..), hkind | _, _, hab@(.numberText ..), hkind
  | _, _, hab@(.listText ..), hkind | _, _, hab@(.list ..), hkind | _, _, hab@(.recast ..), hkind
  | _, _, hab@(.clusters ..), hkind | _, _, hab@(.chain ..), hkind | _, _, hab@(.output ..), hkind
  | _, _, hab@(.curried ..), hkind | _, _, hab@(.suspended ..), hkind => by
    have hfitting := hplain hab trivial trivial hkind
    intro w w' hw
    rw [Both, h.run_fitting hkind]
    refine (hfitting w w' hw).imp_right fun ⟨result, hcomes, hresult⟩ => ⟨result, ?_, hresult⟩
    exact h'.comes_later hcomes fun k => h'.run_fitting (hkinds ▸ hab.kind_eq ▸ hkind) k w'

theorem Poses.agree (h : Poses ask act fitting) (h' : Poses ask' act' fitting') (hkinds : ask.kind = ask'.kind)
    (hwanted : ask.wantedTy = ask'.wantedTy) (hless : Agree m (act n) act')
    (hplain : ∀ {a b : Value}, Value.Twin m.ports a b → a.Plain → b.Plain → a.kind = ask.kind →
      AgreeFrom m a b (fitting (puller n)) fun k => fitting' (puller k)) :
    Agree m (act (n + 1)) act' := by
  intro a b hab
  by_cases hkind : a.kind = ask.kind
  · exact h.agree_fitting h' hkinds hless hplain hab hkind
  · exact h.agree_refused h' hkinds hwanted hab hkind n

end Asked

theorem asks_puller (ports : Bool) (n : Nat) : Asks ports (puller n) := by
  induction n with
  | zero =>
    constructor
    case number =>
      intro loud
      exact Agree.outOfFuel
    case text => exact fun _ _ => Agree.outOfFuel
    case list => exact fun _ => Agree.outOfFuel
    case apply => exact fun _ => Agree.outOfFuel
  | succ n ih =>
    constructor
    case number =>
      intro loud
      exact Poses.number.agree .number rfl rfl ih.number (answerNumber_agree ih)
    case text =>
      intro loud ask hask
      exact (Poses.text ask).agree (.text ask) rfl rfl (ih.text ask hask) (answerText_agree ih ask hask)
    case list =>
      intro loud ask
      exact (Poses.list ask).agree (.list ask) rfl rfl (ih.list ask) (answerList_agree ih ask)
    case apply =>
      intro loud x y hxy
      refine (Poses.apply x).agree (.apply y) rfl ?_ (ih.apply hxy) (answerApply_agree ih hxy)
      exact congrArg (Ty.arrow · (.unknown "b")) hxy.ty_eq

end PullScript
