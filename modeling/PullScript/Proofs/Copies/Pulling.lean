import PullScript.Proofs.Copies.Answering
import PullScript.Proofs.Twin.Pulling
import PullScript.Proofs.View.Built

namespace PullScript

open Act

variable {α σ τ : Type} {feed : Feed} {clean : Bool} {p : Puller} (h : Retentive feed p)
  {I : Bool → Bound → Prop} [Weakens I] (hI : ∀ k, Bound.Yielding feed I k)

section

include h

theorem answerRecast_upholds (ty : Ty) (source : Value) (ask : ListAsk) :
    Upholds (First (Value.Kept feed source)) (answerRecast p ty ask) := by
  cases ask with
  | current =>
    refine .bind (.onFirst (h.current source)) fun item => .look fun s => ?_
    split
    · exact .still (coerce_still p item _)
    · exact .pure
  | advance => exact .bind (.onFirst (h.advance source)) fun _ => .changeSecond fun _ => rfl
  | ended => exact .onFirst (h.listEnded source)
  | rewind => exact .bind (.onFirst (h.rewind source)) fun _ => .changeSecond fun _ => rfl
  | count => exact .onFirst (h.count source)

theorem Bound.applyArg_upholds {k : Nat} (hk : Bound.Yielding feed I k) (x : Value) :
    Upholds I (Bound.applyArg p k x) :=
  hk.on fun value => .bind (requireKind_upheld .fn value) fun _ => h.apply x value

include hI

theorem answerMap_upholds (ask : ListAsk) : Upholds I (answerMap p ask) := by
  cases ask with
  | current =>
    exact .bind ((hI 1).on h.current) fun item => Bound.applyArg_upholds h (hI 0) item
  | advance => exact (hI 1).on h.advance
  | ended => exact (hI 1).on h.listEnded
  | rewind => exact (hI 1).on h.rewind
  | count => exact (hI 1).on h.count

omit h hI in
theorem answerRepeat_upholds (p : Puller) (ask : ListAsk) : Upholds I (answerRepeat p ask) := by
  cases ask with
  | current => exact .bind (.still (Bound.arg_still 0)) fun _ => .pure
  | count => exact .countBySteps .pure .pure .pure _
  | _ => exact .pure

theorem ZipWith.answer_upholds (ask : ListAsk) : Upholds I (ZipWith.answer p ask) := by
  have hadvance : Upholds I (ZipWith.advance p) :=
    .bind ((hI 1).on h.advance) fun _ => (hI 2).on h.advance
  have hrewind : Upholds I (ZipWith.rewind p) :=
    .bind ((hI 1).on h.rewind) fun _ => (hI 2).on h.rewind
  have hended : Upholds I (ZipWith.ended p) := by
    refine .bind ((hI 1).on h.listEnded) fun e => ?_
    cases e with
    | true => exact .pure
    | false => exact (hI 2).on h.listEnded
  cases ask with
  | current =>
    refine .bind ((hI 1).on h.current) fun left => ?_
    refine .bind (.holding ((hI 2).on h.current) _) fun right => ?_
    refine .bind (.holding (Bound.applyArg_upholds h (hI 0) left) _) fun half => ?_
    exact .bind .aside fun _ => .pure
  | advance => exact hadvance
  | ended => exact hended
  | rewind => exact hrewind
  | count => exact .countBySteps hrewind hended hadvance _

theorem Drop.answer_upholds (ask : ListAsk) : Upholds (First I) (Drop.answer p ask) := by
  have hafter {β : Type} {act : Act Value β} (hact : Value.Upheld feed act) :
      Upholds (First I) (Drop.after p act) := by
    have hon : Upholds (First I) (onFirst (Bound.on 1 act) : Act (Bound × Bool) β) :=
      .onFirst ((hI 1).on hact)
    refine .look fun s => ?_
    dsimp only
    split
    · refine .bind (.onFirst (.bind ((hI 0).on h.number) fun _ => .pure)) fun n => ?_
      exact .bind (.onFirst ((hI 1).on (h.skipItems n))) fun _ =>
        .bind (.changeSecond fun _ => rfl) fun _ => hon
    · exact hon
  have hrewind : Upholds (First I) (Drop.rewind p) :=
    .bind (.onFirst ((hI 1).on h.rewind)) fun _ => .changeSecond fun _ => rfl
  cases ask with
  | current => exact hafter h.current
  | advance => exact hafter h.advance
  | ended => exact hafter h.listEnded
  | rewind => exact hrewind
  | count => exact .countBySteps hrewind (hafter h.listEnded) (hafter h.advance) _

theorem Tail.answer_upholds (ask : ListAsk) : Upholds (First I) (Tail.answer p ask) := by
  have hstep : Value.Upheld feed (do
      if ← p.listEnded then fail (.runtime .tailOfEmpty)
      p.advance) := by
    refine fun value => .bind (h.listEnded value) fun e => ?_
    cases e with
    | true => exact .bind .fail fun _ => h.advance value
    | false => exact h.advance value
  have hafter {β : Type} {act : Act Value β} (hact : Value.Upheld feed act) :
      Upholds (First I) (Tail.after p act) := by
    have hon : Upholds (First I) (onFirst (Bound.on 0 act) : Act (Bound × Bool) β) :=
      .onFirst ((hI 0).on hact)
    refine .look fun s => ?_
    dsimp only
    split
    · exact .bind (.onFirst ((hI 0).on hstep)) fun _ =>
        .bind (.changeSecond fun _ => rfl) fun _ => hon
    · exact hon
  have hrewind : Upholds (First I) (Tail.rewind p) :=
    .bind (.onFirst ((hI 0).on h.rewind)) fun _ => .changeSecond fun _ => rfl
  cases ask with
  | current => exact hafter h.current
  | advance => exact hafter h.advance
  | ended => exact hafter h.listEnded
  | rewind => exact hrewind
  | count => exact .countBySteps hrewind (hafter h.listEnded) (hafter h.advance) _

theorem Init.start_upholds : Upholds (First I) (Init.start p) := by
  refine .look fun s => ?_
  split
  · refine .bind (.onFirst ((hI 0).on h.next)) fun first => ?_
    cases first with
    | none => exact .fail
    | some first => exact .changeSecond fun _ => rfl
  · exact .pure

omit h hI in
theorem Init.held_upholds : Upholds (First I) (do match (← look).2.held with
    | some item => return item.copy
    | none => fail (.runtime .pastEnd) : Act (Bound × Init Value) Value) := by
  refine .look fun s => ?_
  split
  · exact .pure
  · exact .fail

theorem Init.answer_upholds (ask : ListAsk) : Upholds (First I) (Init.answer p ask) := by
  have hstart : Upholds (First I) (Init.start p) := Init.start_upholds h hI
  have hended : Upholds (First I) (Init.ended p) := by
    refine hstart.bind fun _ => .look fun s => ?_
    split
    · exact .pure
    · exact .onFirst ((hI 0).on h.listEnded)
  have hadvance : Upholds (First I) (Init.advance p) :=
    hstart.bind fun _ => .bind (.onFirst ((hI 0).on h.next)) fun _ => .changeSecond fun _ => rfl
  have hrewind : Upholds (First I) (Init.rewind p) :=
    .bind (.onFirst ((hI 0).on h.rewind)) fun _ => .changeSecond fun _ => rfl
  cases ask with
  | current =>
    refine hended.bind fun e => ?_
    cases e with
    | true => exact .bind .fail fun _ => Init.held_upholds
    | false => exact Init.held_upholds
  | advance => exact hadvance
  | ended => exact hended
  | rewind => exact hrewind
  | count => exact .countBySteps hrewind hended hadvance _

theorem Reverse.answer_upholds (ask : ListAsk) : Upholds (First I) (Reverse.answer p ask) := by
  have hcollect : Upholds (First I) (Reverse.collect p) := by
    refine .look fun s => ?_
    split
    · exact .pure
    · exact .bind (.onFirst ((hI 0).on h.drainItems)) fun _ =>
        .bind (.changeSecond fun _ => rfl) fun _ => .pure
  cases ask with
  | current =>
    refine hcollect.bind fun items => .look fun s => ?_
    split
    · exact .pure
    · exact .fail
  | advance => exact .changeSecond fun _ => rfl
  | ended => exact hcollect.bind fun _ => .look fun _ => .pure
  | rewind => exact .changeSecond fun _ => rfl
  | count => exact hcollect.bind fun _ => .pure

end

def Take.Kept (feed : Feed) (origin : Bound) (clean : Bool) (s : Bound × Take) : Prop :=
  Bound.Kept feed (fun _ => false) origin clean s.1 ∧ Noted feed countOf origin.args[0]? clean s.1.args[0]? s.2.limit

instance : Weakens (Take.Kept feed origin) :=
  ⟨fun h => ⟨Weakens.weaken h.1, h.2.weaken⟩⟩

namespace Take

theorem onList_upholds {act : Act Value α} (hact : Value.Upheld feed act) :
    Upholds (Take.Kept feed origin) (onFirst (Bound.on 1 act)) := by
  rintro clean ⟨b, state⟩ ⟨hb, hnoted⟩
  have hsame (value : Value) : (b.args.set 1 value)[0]? = b.args[0]? := List.getElem?_set_ne (by decide)
  have hweak : Take.Kept feed origin false (b, state) := ⟨Weakens.weaken hb, hnoted.weaken⟩
  refine Ends.look (Ends.within (Bound.on_ends hweak fun value hvalue => ?_))
  obtain ⟨a, ha, hkept⟩ := hb.exists_origin hvalue
  refine (hact a hkept).imp (fun _ v hv => ⟨hb.set rfl ha hv, ?_⟩) fun v hv => ⟨hweak.1.set rfl ha hv, ?_⟩
  · rw [hsame]
    exact hnoted
  · rw [hsame]
    exact hnoted.weaken

include h

theorem readLimit_upholds (hsource : ∀ source, origin.args[0]? = some source → source.Sealed) :
    Upholds (Take.Kept feed origin) (readLimit p) := by
  rintro clean ⟨b, limit, position⟩ ⟨hb, hnoted⟩
  refine Ends.look ?_
  cases limit with
  | some limit => exact .pure ⟨hb, hnoted⟩
  | none =>
    have hmade : Settles b (countArg p 0) (fun limit b' => Take.Kept feed origin clean (b', ⟨some limit, position⟩))
        fun b' => Take.Kept feed origin false (b', ⟨none, position⟩) := by
      refine Ends.bind (Q := fun x b' => Take.Kept feed origin clean (b', ⟨some (countOf x), position⟩))
        (Bound.on_ends ⟨Weakens.weaken hb, hnoted.weaken⟩ fun value hvalue => ?_) fun x b' hb' => .pure hb'
      obtain ⟨a, ha, hkept⟩ := hb.exists_origin hvalue
      have hset (v : Value) : (b.args.set 0 v)[0]? = some v := by
        rw [List.getElem?_set_self', hvalue]
        rfl
      have hnoted' : Noted feed countOf (some a) clean (some value) none := by
        rw [← ha, ← hvalue]
        exact hnoted
      refine (h.noting (hsource a ha) hkept hnoted').imp (fun x v hv => ?_) fun v hv => ?_
      · refine ⟨hb.set rfl ha hv.1, ?_⟩
        dsimp only
        rw [hset, ha]
        exact hv.2
      · refine ⟨Bound.Kept.set (Weakens.weaken hb) rfl ha hv.1, ?_⟩
        dsimp only
        rw [hset, ha]
        exact hv.2
    refine Ends.bind (Q := fun limit s => Take.Kept feed origin clean (s.1, ⟨some limit, position⟩))
      (Ends.look (Ends.within hmade)) fun limit s hs => ?_
    exact Ends.bind (Ends.change hs) fun _ _ hs => .pure hs

theorem answer_upholds (hsource : ∀ source, origin.args[0]? = some source → source.Sealed) (ask : ListAsk) :
    Upholds (Take.Kept feed origin) (answer p ask) := by
  have hended : Upholds (Take.Kept feed origin) (ended p) := by
    refine .bind (readLimit_upholds h hsource) fun limit => .look fun s => ?_
    split
    · exact .pure
    · exact onList_upholds h.listEnded
  have hadvance : Upholds (Take.Kept feed origin) (advance p) :=
    .bind (onList_upholds h.advance) fun _ => .change fun _ _ hs => hs
  have hrewind : Upholds (Take.Kept feed origin) (rewind p) :=
    .bind (onList_upholds h.rewind) fun _ => .change fun _ _ hs => hs
  cases ask with
  | current =>
    refine hended.bind fun e => ?_
    cases e with
    | true => exact .fail
    | false => exact onList_upholds h.current
  | advance => exact hadvance
  | ended => exact hended
  | rewind => exact hrewind
  | count => exact .countBySteps hrewind hended hadvance _

end Take

namespace Choice

theorem onKnown_upholds {act : Act Value α} (error : Error) : Upholds (First I) (do match ← look with
    | (b, some item) => within item (fun item => (b, some item)) act
    | (_, none) => fail error : Act (Bound × Option Value) α) := by
  rintro clean ⟨b, _ | item⟩ hb
  · exact Ends.look (Ends.fail (Weakens.weaken hb))
  · exact Ends.look (Ends.within (Ends.any (fun _ _ => hb) fun _ => Weakens.weaken (I := I) hb))

theorem apply_upholds (p : Puller) (choice : Choice) (x : Value) : Upholds (First I) (choice.apply p x) := by
  refine .look fun s => ?_
  dsimp only
  split
  · exact .look fun _ => .bind (.holding (.still (choice.chooseFrom_still p _)) _) fun _ =>
      .bind (.changeSecond fun _ => rfl) fun _ => onKnown_upholds _
  · exact onKnown_upholds _

include h hI

theorem find_upholds (choice : Choice) : Upholds I (choice.find p) := by
  have hfront (error : Error) : Value.Upheld feed (do
      if ← p.listEnded then fail error
      p.current) := by
    refine fun value => .bind (h.listEnded value) fun e => ?_
    cases e with
    | true => exact .bind .fail fun _ => h.current value
    | false => exact h.current value
  cases choice with
  | head => exact (hI 0).on (hfront _)
  | last =>
    refine (hI 0).on (fun value => .bind (requireKind_upheld .lst value) fun _ => ?_)
    refine .bind (.loop (fun item => .bind (.holding (h.next value) _) fun following => ?_) _ _) fun item => ?_
    · cases following <;> exact .pure
    · cases item with
      | none => exact .fail
      | some item => exact .pure
  | index =>
    have hitem (n : Float) : Upholds I (Bound.on 0 do
        skipItems p (countOf n)
        if ← p.listEnded then fail (.runtime (.indexOutOfRange n))
        p.current) :=
      (hI 0).on (fun value => .bind (h.skipItems _ value) fun _ => hfront _ value)
    refine .bind ((hI 1).on h.number) fun n => ?_
    dsimp only
    split
    · exact .bind .fail fun _ => hitem n
    · exact hitem n

theorem onItem_upholds (choice : Choice) (act : Act Value α) : Upholds (First I) (choice.onItem p act) := by
  refine .look fun s => ?_
  dsimp only
  split
  · refine .bind (.onFirst (find_upholds h hI choice)) fun item => .look fun _ => ?_
    exact .bind (.still (coerce_still p item _)) fun _ => .bind (.changeSecond fun _ => rfl) fun _ => onKnown_upholds _
  · exact onKnown_upholds _

end Choice

include h hI in
theorem answerChosenText_upholds (choice : Choice) {ask : TextAsk} (hask : ask ≠ .takeNumber) :
    Upholds (First I) (answerChosenText p choice ask) := by
  cases ask with
  | takeNumber => exact absurd rfl hask
  | _ => exact choice.onItem_upholds h hI _

def Value.AllKept (feed : Feed) (origins : List Value) (clean : Bool) (values : List Value) : Prop :=
  values.length = origins.length ∧
    ∀ (i : Nat) (a a' : Value), origins[i]? = some a → values[i]? = some a' → Value.Kept feed a clean a'

instance {origins : List Value} : Weakens (Value.AllKept feed origins) :=
  ⟨fun h => ⟨h.1, fun i a a' ha ha' => (h.2 i a a' ha ha').weaken⟩⟩

namespace Value.AllKept

variable {value left : Value} {values rest : List Value}

theorem cons (hvalue : Value.Kept feed value clean left) (hrest : AllKept feed values clean rest) :
    AllKept feed (value :: values) clean (left :: rest) := by
  refine ⟨by simp only [List.length_cons, hrest.1], fun i a a' ha ha' => ?_⟩
  cases i with
  | zero =>
    cases ha
    cases ha'
    exact hvalue
  | succ i => exact hrest.2 i a a' ha ha'

theorem head (hall : AllKept feed (value :: values) clean (left :: rest)) : Value.Kept feed value clean left :=
  hall.2 0 value left rfl rfl

theorem tail (hall : AllKept feed (value :: values) clean (left :: rest)) : AllKept feed values clean rest :=
  ⟨Nat.succ.inj hall.1, fun i => hall.2 (i + 1)⟩

end Value.AllKept

section

include h

theorem applyStages_settles (x : Value) {origins stages : List Value}
    (hstages : Value.AllKept feed origins clean stages) :
    Retains (Value.AllKept feed origins) clean stages (applyStages p x stages) := by
  induction stages generalizing x origins with
  | nil => exact .pure hstages
  | cons stage rest ih =>
    cases origins with
    | nil => cases hstages.1
    | cons first origins =>
      refine Ends.bind (Q := fun _ s => ∃ left, s = left :: rest ∧ Value.Kept feed first clean left)
        (Ends.within ((h.apply x first hstages.head).imp (fun _ v hv => ⟨v, rfl, hv⟩) fun v hv => ?_)) ?_
      · exact .cons hv (Weakens.weaken hstages.tail)
      · rintro y _ ⟨left, rfl, hleft⟩
        refine Ends.look (Ends.within ((ih y hstages.tail).imp (fun _ s hs => ?_) fun s hs => ?_))
        · exact .cons hleft hs
        · exact .cons hleft.weaken hs

theorem applyFlipped_upholds (hfirst : Bound.Yielding feed I 0) (x : Value) : Upholds I (applyFlipped p x) :=
  .bind (.still (Bound.arg_still 1)) fun _ => .bind (.holding (Bound.applyArg_upholds h hfirst x) _) fun _ =>
    .bind .aside fun _ => .pure

end

theorem Bound.Kept.suspend {name : String} {ty : Ty} {args : List Value} {task task' : Task Value} {b : Bound}
    (hb : Bound.Kept feed (task.copies ty) ⟨name, ty, args⟩ clean b) (hunbegun : task.Unbegun)
    (htake : ∀ state, task ≠ .take state) (hrestarted : task'.restarted = task) :
    Value.Kept feed (.suspended name ty args task) clean (b.suspend task') := by
  obtain ⟨name', ty', args'⟩ := b
  obtain ⟨rfl, rfl, hlength, hargs, hcopied⟩ := hb
  exact .suspended _ hlength hargs hcopied hunbegun htake hrestarted

section

variable {name : String} {ty : Ty} {args : List Value} {task : Task Value} {b : Bound} {left : Value}

theorem Bound.Kept.onTask [Inhabited τ] {state : τ} {make : τ → Task Value} {act : Act (Bound × τ) α}
    (hb : Bound.Kept feed (task.copies ty) ⟨name, ty, args⟩ clean b) (hunbegun : task.Unbegun)
    (htake : ∀ state, task ≠ .take state) (hmake : ∀ state, (make state).restarted = task)
    (hact : Upholds (First (Bound.Kept feed (task.copies ty) ⟨name, ty, args⟩)) act) :
    Retains (Value.Kept feed (.suspended name ty args task)) clean left (onTask b state make act) :=
  hact.within (show First _ clean (b, state) from hb) fun _ s hs => Bound.Kept.suspend hs hunbegun htake (hmake s.2)

theorem Bound.Kept.onArgs {act : Act Bound α} (hb : Bound.Kept feed (task.copies ty) ⟨name, ty, args⟩ clean b)
    (hunbegun : task.Unbegun) (htake : ∀ state, task ≠ .take state)
    (hact : Upholds (Bound.Kept feed (task.copies ty) ⟨name, ty, args⟩) act) :
    Retains (Value.Kept feed (.suspended name ty args task)) clean left (onArgs b task act) :=
  hact.within hb fun _ _ hs => hs.suspend hunbegun htake hunbegun.restarted_eq

theorem Take.Kept.value {s : Bound × Take} (hs : Take.Kept feed ⟨name, ty, args⟩ clean s)
    (hsource : ∀ source, args[0]? = some source → source.Sealed) :
    Value.Kept feed (.suspended name ty args (.take {})) clean (s.1.suspend (.take s.2)) := by
  obtain ⟨⟨name', ty', args'⟩, state⟩ := s
  obtain ⟨⟨rfl, rfl, hlength, hargs, -⟩, hnoted⟩ := hs
  exact .taking _ _ state hlength hargs hsource hnoted

theorem Task.copies_pick {kind : Kind} {choice : Choice} {item : Option Value}
    (hkind : (Task.pick choice item).kind ty = kind) (hfn : kind ≠ .fn) (k : Nat) :
    (Task.pick choice none).copies ty k = false := by
  subst hkind
  cases hty : ty.kind with
  | arrow => exact absurd (by simp [Task.kind, hty]) hfn
  | _ => simp [Task.copies, hty]

end

section

variable {value left : Value}

include h

theorem answerNumber_settles (hkept : Value.Kept feed value clean left) (hkind : left.kind = .num) :
    Retains (Value.Kept feed value) clean left (answerNumber p) := by
  have hweak := hkept.weaken
  refine Ends.look ?_
  cases hkept with
  | number n => exact .pure (.number n)
  | defined name doc hvalue =>
    exact (h.number _).within hvalue fun _ _ hv => .defined name doc hv
  | @suspended name ty args args' task task' _ hlength hargs hcopied hunbegun htake hrestarted =>
    have hb : Bound.Kept feed (task.copies ty) ⟨name, ty, args⟩ clean ⟨name, ty, args'⟩ :=
      ⟨rfl, rfl, hlength, hargs, hcopied⟩
    subst hrestarted
    cases task' with
    | calculate c known => exact hb.onTask hunbegun htake (fun _ => rfl) (calculated_upholds h (fun _ => .free rfl) c)
    | pick choice item =>
      have hfree := Task.copies_pick hkind (by decide)
      exact hb.onTask hunbegun htake (fun _ => rfl) (choice.onItem_upholds h (fun k => .free (hfree k)) p.number)
    | _ => exact .fail hweak
  | _ => exact .fail hweak

theorem answerText_settles {ask : TextAsk} (hask : ask ≠ .takeNumber) (hkept : Value.Kept feed value clean left)
    (hkind : left.kind = .str) : Retains (Value.Kept feed value) clean left (answerText p ask) := by
  have hweak := hkept.weaken
  refine Ends.look ?_
  cases hkept with
  | text bytes read => exact Ends.zoom (.any (fun _ read => .text bytes read) fun read => .text bytes read)
  | chunks parts position =>
    exact Ends.zoom (.any (fun _ position => .chunks parts position) fun position => .chunks parts position)
  | numberText hsource hvalue hnoted =>
    have hact : Upholds (Once.Kept feed _) (answerNumberText p ask) :=
      Once.answer_upholds (numberBytes_upholds h hsource) (fun _ _ hs => hs) hask
    exact hact.within ⟨_, rfl, hvalue, hnoted⟩ fun _ _ hs => hs.value hsource
  | @listText source source' joiner _ hvalue =>
    have hact : Upholds (Joiner.Kept feed source joiner.separator) (Joiner.answer p ask) := Joiner.answer_upholds h ask
    refine hact.within ⟨hvalue, rfl⟩ fun _ s hs => ?_
    rw [← hs.2]
    exact .listText s.1 hs.1
  | defined name doc hvalue =>
    exact (h.text ask hask _).within hvalue fun _ _ hv => .defined name doc hv
  | @suspended name ty args args' task task' _ hlength hargs hcopied hunbegun htake hrestarted =>
    have hb : Bound.Kept feed (task.copies ty) ⟨name, ty, args⟩ clean ⟨name, ty, args'⟩ :=
      ⟨rfl, rfl, hlength, hargs, hcopied⟩
    subst hrestarted
    cases task' with
    | render r once =>
      have hbytes : Upholds (First (Bound.Kept feed (fun _ => false) ⟨name, ty, args⟩)) (Once.bytes (r.run p)) := by
        refine .look fun s => ?_
        split
        · exact .pure
        · exact .bind (.onFirst (r.run_upholds h (fun _ => .free rfl))) fun _ =>
            .bind (.changeSecond fun _ => rfl) fun _ => .pure
      exact hb.onTask hunbegun htake (fun _ => rfl) (Once.answer_upholds hbytes (fun _ _ hs => hs) hask)
    | encode e => exact hb.onArgs hunbegun htake (answerEncoding_upholds h (fun _ => .free rfl) e ask)
    | concat state =>
      have hact : Upholds (Concat.Kept (Bound.Kept feed (fun _ => false) ⟨name, ty, args⟩) state.order)
          (Concat.answer p ask) := Concat.answer_upholds h (fun _ => .free rfl) ask
      have horder (s : Bound × Concat) (hs : s.2.order = state.order) :
          (Task.concat s.2 : Task Value).restarted = (Task.concat state).restarted := by
        rw [Task.restarted, hs, Task.restarted]
      exact hact.within ⟨hb, rfl⟩ fun _ s hs => Bound.Kept.suspend hs.1 hunbegun htake (horder s hs.2)
    | join joiner =>
      exact hb.onTask hunbegun htake (fun _ => rfl) (Joiner.answerJoin_upholds h (fun _ => .free rfl) ask)
    | pick choice item =>
      have hfree := Task.copies_pick hkind (by decide)
      exact hb.onTask hunbegun htake (fun _ => rfl) (answerChosenText_upholds h (fun k => .free (hfree k)) choice hask)
    | _ => exact .fail hweak
  | _ => exact .fail hweak

theorem answerList_settles (ask : ListAsk) (hkept : Value.Kept feed value clean left) (hkind : left.kind = .lst) :
    Retains (Value.Kept feed value) clean left (answerList p ask) := by
  have hweak := hkept.weaken
  refine Ends.look ?_
  cases hkept with
  | list elements items position =>
    exact Ends.zoom (.any (fun _ position => .list elements items position) fun position =>
      .list elements items position)
  | recast ty position hvalue =>
    exact (answerRecast_upholds h ty _ ask).within (show First _ clean (_, position) from hvalue)
      fun _ s hs => .recast ty s.2 hs
  | clusters cutter hvalue =>
    exact (Cutter.answer_upholds h _ .grapheme _ ask).within (show Second _ clean (cutter, _) from hvalue)
      fun _ s hs => .clusters s.1 hs
  | defined name doc hvalue =>
    exact (h.list ask _).within hvalue fun _ _ hv => .defined name doc hv
  | @taking name ty args args' state _ hlength hargs hsource hnoted =>
    have hb : Take.Kept feed ⟨name, ty, args⟩ clean (⟨name, ty, args'⟩, state) :=
      ⟨⟨rfl, rfl, hlength, hargs, fun _ hk => absurd hk Bool.false_ne_true⟩, hnoted⟩
    exact (Take.answer_upholds h hsource ask).within hb fun _ _ hs => hs.value hsource
  | @suspended name ty args args' task task' _ hlength hargs hcopied hunbegun htake hrestarted =>
    have hb : Bound.Kept feed (task.copies ty) ⟨name, ty, args⟩ clean ⟨name, ty, args'⟩ :=
      ⟨rfl, rfl, hlength, hargs, hcopied⟩
    subst hrestarted
    cases task' with
    | bytes ahead => exact hb.onTask hunbegun htake (fun _ => rfl) (ByteList.answer_upholds h (fun _ => .free rfl) ask)
    | units unit cutter =>
      exact hb.onTask hunbegun htake (fun _ => rfl) (answerUnits_upholds h (fun _ => .free rfl) unit ask)
    | split splitter =>
      exact hb.onTask hunbegun htake (fun _ => rfl) (Splitter.answer_upholds h (fun _ => .free rfl) ask)
    | map => exact hb.onArgs hunbegun htake (answerMap_upholds h (fun _ => .free rfl) ask)
    | «repeat» => exact hb.onArgs hunbegun htake (answerRepeat_upholds p ask)
    | zipWith => exact hb.onArgs hunbegun htake (ZipWith.answer_upholds h (fun _ => .free rfl) ask)
    | take state => exact absurd rfl (htake _)
    | drop skipped => exact hb.onTask hunbegun htake (fun _ => rfl) (Drop.answer_upholds h (fun _ => .free rfl) ask)
    | tail started => exact hb.onTask hunbegun htake (fun _ => rfl) (Tail.answer_upholds h (fun _ => .free rfl) ask)
    | init state => exact hb.onTask hunbegun htake (fun _ => rfl) (Init.answer_upholds h (fun _ => .free rfl) ask)
    | reverse state => exact hb.onTask hunbegun htake (fun _ => rfl) (Reverse.answer_upholds h (fun _ => .free rfl) ask)
    | pick choice item =>
      have hfree := Task.copies_pick hkind (by decide)
      exact hb.onTask hunbegun htake (fun _ => rfl) (choice.onItem_upholds h (fun k => .free (hfree k)) _)
    | _ => exact .fail hweak
  | _ => exact .fail hweak

theorem answerApply_settles (x : Value) (hkept : Value.Kept feed value clean left) :
    Retains (Value.Kept feed value) clean left (answerApply p x) := by
  have hweak := hkept.weaken
  refine Ends.look ?_
  cases hkept with
  | chain ty hlength hstages =>
    exact Ends.within ((applyStages_settles h x ⟨hlength, hstages⟩).imp (fun _ _ hs => .chain ty hs.1 hs.2)
      fun _ hs => .chain ty hs.1 hs.2)
  | curried builtin ty args =>
    exact Upholds.still (applyCurried_still p builtin ty args x) (Value.Kept.curried builtin ty args)
  | defined name doc hvalue =>
    exact (h.apply x _).within hvalue fun _ _ hv => .defined name doc hv
  | @suspended name ty args args' task task' _ hlength hargs hcopied hunbegun htake hrestarted =>
    have hb : Bound.Kept feed (task.copies ty) ⟨name, ty, args⟩ clean ⟨name, ty, args'⟩ :=
      ⟨rfl, rfl, hlength, hargs, hcopied⟩
    subst hrestarted
    cases task' with
    | const => exact hb.onArgs hunbegun htake (.bind (.still (Bound.arg_still 0)) fun _ => .pure)
    | flip => exact hb.onArgs hunbegun htake (applyFlipped_upholds h (.free rfl) x)
    | pick choice item => exact hb.onTask hunbegun htake (fun _ => rfl) (choice.apply_upholds p x)
    | _ => exact .fail hweak
  | _ => exact .fail hweak

end

theorem answer_settles {value left : Value} {ask : Ask} (hkept : Value.Kept feed value clean left)
    (hfitting : left.kind = ask.kind →
      Retains (Value.Kept feed value) clean left (answerFitting p ask)) :
    Retains (Value.Kept feed value) clean left (answer p ask) := by
  have hrequire : Settles left (requireFor ask) (fun _ v => v = left ∧ left.kind = ask.kind)
      (Value.Kept feed value false) := by
    refine Ends.look ?_
    split
    case isTrue hkind => exact .pure ⟨rfl, hkind⟩
    case isFalse => exact .fail hkept.weaken
  refine hrequire.bind ?_
  rintro _ _ ⟨rfl, hkind⟩
  exact hfitting hkind

/-- A number that has nothing to do with the world is what there is to see in any world, and where it cannot be made
there is nothing to see. -/
theorem Value.Sealed.made {source : Value} (hsource : source.Sealed) (w₀ : World) (n : Nat) :
    Settles source (puller n).number (fun x _ => (View.ask source .number).Gives w₀.feed x) fun _ =>
      ∀ x, ¬ (View.ask source .number).Gives w₀.feed x := by
  intro _ w _
  have htells (k : Nat) : Tells w₀.feed k w₀.read source (fun k => (puller k).number) (.ask source .number)
      fun seen' _ v => source.At w₀.feed seen' 0 v :=
    (pulls w₀.feed k).number hsource.unpulled hsource.unpulled.at_start
  have hboth : Both (Agrees ⟨false, false⟩ w { w₀ with out := {} }) (puller n).number (source, w)
      (fun k => (puller k).number) (source, { w₀ with out := {} }) :=
    (asks_puller false n).number hsource.twin w { w₀ with out := {} } (by constructor <;> intro h <;> cases h)
  obtain ⟨s, hout⟩ | ⟨result, hcomes, hagrees⟩ := hboth
  · rw [hout]
    exact fun hcounts => absurd rfl hcounts
  · obtain ⟨least, hleast⟩ := hcomes.enough
    cases hrun : (puller n).number (source, w) with
    | ok x s =>
      rw [hrun] at hagrees
      cases hagrees with
      | ok hxy _ _ =>
        obtain rfl := hxy
        obtain ⟨_, _, _, hgives, -, rfl, -⟩ := (htells least).sound w₀.stocked_roomy (hleast least (Nat.le_refl _))
        exact ⟨hgives, trivial⟩
    | error stop s =>
      rw [hrun] at hagrees
      cases hagrees with
      | failed error _ _ =>
        refine fun _ => ⟨?_, trivial⟩
        rintro x ⟨k, hk⟩
        obtain ⟨_, _, _, _, _, hcomes', -⟩ := (htells k).complete w₀.stocked_roomy hk
        obtain ⟨least', hleast'⟩ := hcomes'.enough
        cases (hleast _ (Nat.le_max_left least least')).symm.trans (hleast' _ (Nat.le_max_right least least'))

theorem retentive_puller (w₀ : World) (n : Nat) : Retentive w₀.feed (puller n) := by
  induction n with
  | zero =>
    exact ⟨fun _ => .outOfFuel, fun _ _ _ => .outOfFuel, fun _ _ => .outOfFuel, fun _ _ => .outOfFuel,
      fun hsource => hsource.made w₀ 0⟩
  | succ n ih =>
    constructor
    case number => exact fun value _ _ hkept => answer_settles hkept (answerNumber_settles ih hkept)
    case text => exact fun ask hask value _ _ hkept => answer_settles hkept (answerText_settles ih hask hkept)
    case list => exact fun ask value _ _ hkept => answer_settles hkept (answerList_settles ih ask hkept)
    case apply => exact fun x value _ _ hkept => answer_settles hkept fun _ => answerApply_settles ih x hkept
    case made => exact fun hsource => hsource.made w₀ (n + 1)

end PullScript
