import PullScript.Proofs.View.Joining
import PullScript.Proofs.View.Lasting

namespace PullScript

open Act

variable {items : List Value} {position : Nat} {cutter : Cutter} {source : Value}

variable {α : Type} {feed : Feed} {seen : Reach} {p : Puller}

def ListAsk.Forward : ListAsk → Prop
  | .ended | .current | .advance => True
  | .rewind | .count => False

def ListAsk.SaysOver : (ask : ListAsk) → ask.Reply → Prop
  | .ended, e => e = true
  | _, _ => True

def TextAsk.Forward : TextAsk → Prop
  | .ended | .stream => True
  | .drain | .takeNumber => False

def TextAsk.SaysOver : (ask : TextAsk) → ask.Reply → Prop
  | .ended, e => e = true
  | _, _ => True

structure Puller.Rests (feed : Feed) (seen : Reach) (p : Puller) : Prop where
  steady : p.Steady
  text : ∀ (ask : TextAsk) {value : Value}, ask.Forward → value.Over feed seen →
    Lasts feed seen value (p.pull (.text ask)) (fun reply v => v.Over feed seen ∧ ask.SaysOver reply)
      fun v => v.Over feed seen
  list : ∀ (ask : ListAsk) {value : Value}, ask.Forward → value.Over feed seen →
    Lasts feed seen value (p.pull (.list ask)) (fun reply v => v.Over feed seen ∧ ask.SaysOver reply)
      fun v => v.Over feed seen

namespace Puller.Rests

variable (h : p.Rests feed seen) {value : Value} (hvalue : value.Over feed seen)
include h hvalue

theorem textEnded : Stays feed seen (Value.Over feed seen) (· = true) value p.textEnded :=
  h.text .ended trivial hvalue

theorem current : Stays feed seen (Value.Over feed seen) (fun _ => True) value p.current :=
  h.list .current trivial hvalue

theorem advance : Stays feed seen (Value.Over feed seen) (fun _ => True) value p.advance :=
  h.list .advance trivial hvalue

theorem listEnded : Stays feed seen (Value.Over feed seen) (· = true) value p.listEnded :=
  h.list .ended trivial hvalue

theorem next : Stays feed seen (Value.Over feed seen) (· = none) value p.next := by
  refine (h.listEnded hvalue).bind ?_
  rintro _ v ⟨hv, rfl⟩
  exact .pure ⟨hv, rfl⟩

end Puller.Rests

section Arguments

variable {b : Bound} {k : Nat} {act : Act Value α}

theorem Bound.ArgOver.on (hb : b.ArgOver feed seen k) {R : α → Prop}
    (h : ∀ {a : Value}, a.Over feed seen → Stays feed seen (Value.Over feed seen) R a act) :
    Stays feed seen (Bound.ArgOver feed seen k) R b (Bound.on k act) := by
  refine Bound.on_ends hb fun value hvalue => ?_
  obtain ⟨a, ha, hover⟩ := hb
  obtain rfl : a = value := Option.some.inj (ha.symm.trans hvalue)
  exact (h hover).back fun v hv => ⟨v, List.getElem?_set_self (List.getElem?_eq_some_iff.1 ha).1, hv⟩

theorem Bound.ArgOver.onOther (hb : b.ArgOver feed seen k) {j : Nat} (hjk : j ≠ k) (h : Usual false act) :
    Stays feed seen (Bound.ArgOver feed seen k) (fun _ => True) b (Bound.on j act) := by
  refine Bound.on_ends hb fun _ _ => ?_
  obtain ⟨a, ha, hover⟩ := hb
  have hback (v : Value) : Bound.ArgOver feed seen k { b with args := b.args.set j v } :=
    ⟨a, (List.getElem?_set_ne hjk).trans ha, hover⟩
  exact Lasts.any h (fun _ v => ⟨hback v, trivial⟩) hback

end Arguments

theorem coerce_lasts {σ : Type} [Holder σ] (h : p.Steady) (s : σ) (value : Value) (target : Ty) :
    Lasts feed seen s (coerce p value target) (fun _ s' => s' = s) fun s' => s' = s := by
  unfold coerce
  split
  case h_6 =>
    have htake : Lasts feed seen s (aside value p.takeNumber) (fun _ s' => s' = s) fun s' => s' = s :=
      Ends.aside (Lasts.any h.takeNumber (fun _ _ => rfl) fun _ => rfl)
    refine htake.bind ?_
    rintro ⟨_ | number, _⟩ _ rfl
    · exact .fail rfl
    · exact .pure rfl
  case h_10 => exact .fail rfl
  all_goals exact .pure rfl

section Lists

variable {ask : ListAsk} {b : Bound}

variable {k : Nat} {s : Bound × Take}

theorem answerItems_lasts (hask : ask.Forward) (h : items.length ≤ position) :
    Stays feed seen (items.length ≤ ·) ask.SaysOver position (answerItems items ask) := by
  have hnone : items[position]? = none := List.getElem?_eq_none h
  cases ask with
  | current =>
    refine Ends.look ?_
    rw [hnone]
    exact .fail h
  | advance => exact .change ⟨by simpa [hnone] using h, trivial⟩
  | ended => exact Ends.look (.pure ⟨h, by simp [ListAsk.SaysOver, hnone]⟩)
  | rewind | count => exact hask.elim

theorem Cutter.answer_lasts (p : Puller) (ty : Ty) (unit : TextUnit) (hask : ask.Forward)
    (hcurrent : cutter.current = none) (hdone : cutter.done = true) :
    Stays feed seen (fun s => s.1.current = none ∧ s.1.done = true) ask.SaysOver (cutter, source)
      (Cutter.answer p ty unit ask) := by
  have hfetch : Lasts feed seen (cutter, source) (Cutter.fetch p unit) (fun _ s => s = (cutter, source))
      fun s => s.1.current = none ∧ s.1.done = true := by
    refine Ends.look ?_
    simp only [hdone, Bool.not_true, Bool.and_false, Bool.false_eq_true, if_false]
    exact .pure rfl
  cases ask with
  | current =>
    refine Ends.bind (Q := fun _ _ => False) (hfetch.bind ?_) fun _ _ => False.elim
    rintro _ _ rfl
    refine Ends.look ?_
    rw [hcurrent]
    exact .fail ⟨hcurrent, hdone⟩
  | advance =>
    refine hfetch.bind ?_
    rintro _ _ rfl
    exact .change ⟨⟨rfl, hdone⟩, trivial⟩
  | ended =>
    refine hfetch.bind ?_
    rintro _ _ rfl
    exact Ends.look (.pure ⟨⟨hcurrent, hdone⟩, by simp [ListAsk.SaysOver, hcurrent]⟩)
  | rewind | count => exact hask.elim

theorem answerUnits_lasts (p : Puller) (unit : TextUnit) (hask : ask.Forward) (hcurrent : cutter.current = none)
    (hdone : cutter.done = true) :
    Stays feed seen (fun s => s.2.current = none ∧ s.2.done = true) ask.SaysOver (b, cutter)
      (answerUnits p unit ask) := by
  exact Bound.onFirst_arg_ends ⟨hcurrent, hdone⟩ fun _ _ =>
    .look (.within (Cutter.answer_lasts p b.ty unit hask hcurrent hdone))

theorem Splitter.answer_lasts (p : Puller) {splitter : Splitter} (hask : ask.Forward)
    (hcurrent : splitter.current = none) (hdone : splitter.done = true) :
    Stays feed seen (fun s => s.2.current = none ∧ s.2.done = true) ask.SaysOver (b, splitter)
      (Splitter.answer p ask) := by
  have hfetch : Lasts feed seen (b, splitter) (Splitter.fetch p) (fun _ s => s = (b, splitter))
      fun s => s.2.current = none ∧ s.2.done = true := by
    refine Ends.look ?_
    simp only [hdone, Bool.not_true, Bool.and_false, Bool.false_eq_true, if_false]
    exact .pure rfl
  cases ask with
  | current =>
    refine hfetch.bind ?_
    rintro _ _ rfl
    refine Ends.look ?_
    rw [hcurrent]
    exact .fail ⟨hcurrent, hdone⟩
  | advance =>
    refine hfetch.bind ?_
    rintro _ _ rfl
    exact .change ⟨⟨rfl, hdone⟩, trivial⟩
  | ended =>
    refine hfetch.bind ?_
    rintro _ _ rfl
    exact Ends.look (.pure ⟨⟨hcurrent, hdone⟩, by simp [ListAsk.SaysOver, hcurrent]⟩)
  | rewind | count => exact hask.elim

theorem Reverse.answer_lasts (p : Puller) {state : Reverse Value} (hask : ask.Forward)
    (hitems : state.items = some items) (hposition : items.length ≤ state.position) :
    Stays feed seen (fun s => Task.IsOver (.reverse s.2)) ask.SaysOver (b, state) (Reverse.answer p ask) := by
  have hover : Task.IsOver (.reverse state) := ⟨items, hitems, hposition⟩
  have hcollect : Lasts feed seen (b, state) (Reverse.collect p) (fun found s => s = (b, state) ∧ found = items)
      fun s => Task.IsOver (.reverse s.2) := by
    refine Ends.look ?_
    rw [hitems]
    exact .pure ⟨rfl, rfl⟩
  have hnone : items[state.position]? = none := List.getElem?_eq_none hposition
  cases ask with
  | current =>
    refine hcollect.bind ?_
    rintro _ _ ⟨rfl, rfl⟩
    refine Ends.look ?_
    rw [hnone]
    exact .fail hover
  | advance =>
    have hnext : Task.IsOver (.reverse { state with position := state.position + 1 }) :=
      ⟨items, hitems, Nat.le_succ_of_le hposition⟩
    exact fun _ _ hw => ⟨⟨hnext, trivial⟩, hw⟩
  | ended =>
    refine hcollect.bind ?_
    rintro _ _ ⟨rfl, rfl⟩
    exact Ends.look (.pure ⟨hover, by simp [ListAsk.SaysOver, hnone]⟩)
  | rewind | count => exact hask.elim

variable (h : p.Rests feed seen) (hask : ask.Forward)
include h hask

theorem answerRecast_lasts (ty : Ty) (hsource : source.Over feed seen) :
    Stays feed seen (fun s => s.1.Over feed seen) ask.SaysOver (source, position) (answerRecast p ty ask) := by
  have honFirst {α : Type} {act : Act Value α} {R : α → Prop}
      (hact : Stays feed seen (Value.Over feed seen) R source act) :
      Stays feed seen (fun s => s.1.Over feed seen) R (source, position) (Act.onFirst act) :=
    Stays.onFirst hact fun _ hs => hs
  cases ask with
  | current =>
    refine (honFirst (h.current hsource)).bind ?_
    rintro item s ⟨hs, -⟩
    refine Ends.look ?_
    split
    case h_1 target _ =>
      refine (coerce_lasts h.steady _ item target).imp ?_ ?_
      · rintro _ _ rfl
        exact ⟨hs, trivial⟩
      · rintro _ rfl
        exact hs
    case h_2 => exact .pure ⟨hs, trivial⟩
  | advance => exact (honFirst (h.advance hsource)).bind fun _ _ hs => .change hs
  | ended => exact honFirst (h.listEnded hsource)
  | rewind | count => exact hask.elim

theorem answerMap_lasts (hb : b.ArgOver feed seen 1) :
    Stays feed seen (Bound.ArgOver feed seen 1) ask.SaysOver b (answerMap p ask) := by
  cases ask with
  | current =>
    refine (hb.on (h.list .current hask)).bind fun item b' hb' => hb'.1.onOther (by decide) ?_
    exact .bind (requireKind_steps _) fun _ => h.steady.apply item
  | advance => exact hb.on (h.list .advance hask)
  | ended => exact hb.on (h.list .ended hask)
  | rewind | count => exact hask.elim

omit hask in
theorem Bound.ArgOver.pullList (hb : b.ArgOver feed seen k) (j : Nat) (ask : ListAsk) (hask : ask.Forward) :
    Stays feed seen (Bound.ArgOver feed seen k) (fun reply => j = k → ask.SaysOver reply) b
      (Bound.on j (p.pull (.list ask))) := by
  by_cases hjk : j = k
  · subst hjk
    exact (hb.on (h.list ask hask)).imp (fun _ _ ⟨hb', hreply⟩ => ⟨hb', fun _ => hreply⟩) fun _ => id
  · exact (hb.onOther hjk (h.steady.list ask)).imp (fun _ _ hb' => ⟨hb'.1, fun hk => absurd hk hjk⟩) fun _ => id

theorem ZipWith.answer_lasts (hk : k = 1 ∨ k = 2) (hb : b.ArgOver feed seen k) :
    Stays feed seen (Bound.ArgOver feed seen k) ask.SaysOver b (ZipWith.answer p ask) := by
  cases ask with
  | current =>
    refine (hb.pullList h 1 .current hask).bind fun left b₁ hb₁ => ?_
    refine ((hb₁.1.pullList h 2 .current hask).holding [left]).bind fun right b₂ hb₂ => ?_
    refine ((hb₂.1.onOther (by omega) ?_).holding [right]).bind fun half b₃ hb₃ => ?_
    · exact .bind (requireKind_steps _) fun _ => h.steady.apply left
    have happly : Usual false _ := h.steady.apply right
    refine (Ends.aside (Q := fun _ b' => b' = b₃) (Lasts.any happly (fun _ _ => rfl) fun _ => hb₃.1)).bind ?_
    rintro ⟨result, _⟩ _ rfl
    exact .pure hb₃
  | advance =>
    refine (hb.pullList h 1 .advance hask).bind fun _ b₁ hb₁ => ?_
    exact (hb₁.1.pullList h 2 .advance hask).imp (fun _ _ hb₂ => ⟨hb₂.1, trivial⟩) fun _ => id
  | ended =>
    refine (hb.pullList h 1 .ended hask).bind fun e b₁ hb₁ => ?_
    cases e with
    | true => exact .pure ⟨hb₁.1, rfl⟩
    | false =>
      obtain rfl : k = 2 := hk.resolve_left fun h1 => Bool.false_ne_true (hb₁.2 h1.symm)
      exact (hb₁.1.pullList h 2 .ended hask).imp (fun _ _ hb₂ => ⟨hb₂.1, hb₂.2 rfl⟩) fun _ => id
  | rewind | count => exact hask.elim

omit hask

/-- A state of `take` that is over, because enough items have been taken or there are no more. -/
def Take.IsOver (feed : Feed) (seen : Reach) (s : Bound × Take) : Prop :=
  Task.IsOver (.take s.2) ∨ s.1.ArgOver feed seen 1

omit h in
theorem Take.IsOver.suspend (hs : Take.IsOver feed seen s) : (s.1.suspend (.take s.2)).Over feed seen := by
  rcases hs with htask | harg
  · exact .done _ _ _ htask
  · exact harg.suspend rfl

theorem Take.ended_lasts (hs : Take.IsOver feed seen s) :
    Stays feed seen (Take.IsOver feed seen) (· = true) s (Take.ended p) := by
  obtain ⟨b, state⟩ := s
  have hlimit : Lasts feed seen (b, state) (Take.readLimit p)
      (fun limit s' => Take.IsOver feed seen s' ∧ (limit ≤ s'.2.position ∨ s'.1.ArgOver feed seen 1))
      (Take.IsOver feed seen) := by
    refine Ends.look ?_
    rcases hs with ⟨limit, hlimit, hposition⟩ | harg
    · rw [hlimit]
      exact .pure ⟨.inl ⟨limit, hlimit, hposition⟩, .inl hposition⟩
    · split
      case h_1 limit hlimit => exact .pure ⟨.inr harg, .inr harg⟩
      case h_2 =>
        have hcount : Stays feed seen (Bound.ArgOver feed seen 1) (fun _ => True) b (countArg p 0) :=
          (harg.onOther (j := 0) (by decide) h.steady.number).bind fun _ _ hb' => .pure hb'
        refine Ends.bind (Q := fun _ s' => s'.1.ArgOver feed seen 1) (Ends.onFirst (hcount.imp ?_ ?_)) ?_
        · exact fun _ _ hb' => hb'.1
        · exact fun _ hb' => .inr hb'
        · exact fun limit s' hs' => (Ends.change (Q := fun _ s' => s'.1.ArgOver feed seen 1) hs').bind fun _ _ hs' =>
            .pure ⟨.inr hs', .inr hs'⟩
  refine hlimit.bind ?_
  rintro limit ⟨b', state'⟩ ⟨hs', hover⟩
  refine Ends.look ?_
  split
  · exact .pure ⟨hs', rfl⟩
  · next hposition => exact Stays.onFirst ((hover.resolve_left hposition).on h.listEnded) fun _ hb' => .inr hb'

theorem Take.advance_lasts (hs : Take.IsOver feed seen s) :
    Stays feed seen (Take.IsOver feed seen) (fun _ => True) s (Take.advance p) := by
  obtain ⟨b, state⟩ := s
  refine Ends.bind (Q := fun _ s' => Take.IsOver feed seen s') (Ends.onFirst ?_) ?_
  · rcases hs with htask | harg
    · exact Lasts.any (Bound.on_steps 1 h.steady.advance) (fun _ _ => .inl htask) fun _ => .inl htask
    · exact (harg.pullList h 1 .advance trivial).imp (fun _ _ hb' => .inr hb'.1) fun _ hb' => .inr hb'
  · rintro _ ⟨b', state'⟩ hs'
    refine Ends.change ⟨?_, trivial⟩
    rcases hs' with ⟨limit, hlimit, hposition⟩ | harg
    · exact .inl ⟨limit, hlimit, Nat.le_succ_of_le hposition⟩
    · exact .inr harg

theorem Take.answer_lasts (hask : ask.Forward) (hs : Take.IsOver feed seen s) :
    Stays feed seen (Take.IsOver feed seen) ask.SaysOver s (Take.answer p ask) := by
  cases ask with
  | current =>
    refine (Take.ended_lasts h hs).bind ?_
    rintro _ s' ⟨hs', rfl⟩
    exact .fail hs'
  | advance => exact Take.advance_lasts h hs
  | ended => exact Take.ended_lasts h hs
  | rewind | count => exact hask.elim

theorem Bound.ArgOver.onFirst {τ : Type} [Holder τ] {t : τ} (hb : b.ArgOver feed seen k) (ask : ListAsk)
    (hask : ask.Forward) : Stays feed seen (fun s => s.1.ArgOver feed seen k ∧ s.2 = t) ask.SaysOver (b, t)
      (Act.onFirst (Bound.on k (p.pull (.list ask)))) :=
  Stays.onFirst (hb.on (h.list ask hask)) fun _ hb' => ⟨hb', rfl⟩

theorem Drop.answer_lasts (hask : ask.Forward) (hb : b.ArgOver feed seen 1) :
    Stays feed seen (fun s => s.1.ArgOver feed seen 1 ∧ s.2 = true) ask.SaysOver (b, true) (Drop.answer p ask) := by
  cases ask with
  | current => exact hb.onFirst h .current hask
  | advance => exact hb.onFirst h .advance hask
  | ended => exact hb.onFirst h .ended hask
  | rewind | count => exact hask.elim

theorem Tail.answer_lasts (hask : ask.Forward) (hb : b.ArgOver feed seen 0) :
    Stays feed seen (fun s => s.1.ArgOver feed seen 0 ∧ s.2 = true) ask.SaysOver (b, true) (Tail.answer p ask) := by
  cases ask with
  | current => exact hb.onFirst h .current hask
  | advance => exact hb.onFirst h .advance hask
  | ended => exact hb.onFirst h .ended hask
  | rewind | count => exact hask.elim

def Init.IsOver (feed : Feed) (seen : Reach) (s : Bound × Init Value) : Prop :=
  s.1.ArgOver feed seen 0 ∧ s.2.started = true

omit h in
theorem Init.start_lasts (p : Puller) {s : Bound × Init Value} (hs : Init.IsOver feed seen s) :
    Lasts feed seen s (Init.start p) (fun _ s' => s' = s) (Init.IsOver feed seen) := by
  refine Ends.look ?_
  rw [hs.2]
  exact .pure rfl

theorem Init.ended_lasts {s : Bound × Init Value} (hs : Init.IsOver feed seen s) :
    Stays feed seen (Init.IsOver feed seen) (· = true) s (Init.ended p) := by
  refine (Init.start_lasts p hs).bind ?_
  rintro _ ⟨b, state⟩ rfl
  refine Ends.look ?_
  split
  · exact .pure ⟨hs, rfl⟩
  · exact Stays.onFirst (hs.1.on h.listEnded) fun _ hb => ⟨hb, hs.2⟩

theorem Init.answer_lasts (hask : ask.Forward) {s : Bound × Init Value} (hs : Init.IsOver feed seen s) :
    Stays feed seen (Init.IsOver feed seen) ask.SaysOver s (Init.answer p ask) := by
  cases ask with
  | current =>
    refine (Init.ended_lasts h hs).bind ?_
    rintro _ s' ⟨hs', rfl⟩
    exact .fail hs'
  | advance =>
    refine (Init.start_lasts p hs).bind ?_
    rintro _ ⟨b, state⟩ rfl
    have hnext : Stays feed seen (Init.IsOver feed seen) (· = none) (b, state) (onFirst (Bound.on 0 p.next)) :=
      Stays.onFirst (hs.1.on h.next) fun _ hb => ⟨hb, hs.2⟩
    exact hnext.bind fun item s' hs' => .change ⟨hs'.1, trivial⟩
  | ended => exact Init.ended_lasts h hs
  | rewind | count => exact hask.elim

theorem ByteList.answer_lasts (hask : ask.Forward) (hb : b.ArgOver feed seen 0) :
    Stays feed seen (fun s => s.1.ArgOver feed seen 0 ∧ s.2 = []) ask.SaysOver (b, []) (ByteList.answer p ask) := by
  have hfill : Lasts feed seen (b, []) (ByteList.fill p) (fun _ s => s.1.ArgOver feed seen 0 ∧ s.2 = [])
      fun s => s.1.ArgOver feed seen 0 ∧ s.2 = [] := by
    have hended : Stays feed seen (fun s => s.1.ArgOver feed seen 0 ∧ s.2 = []) (· = true) (b, ([] : Bytes))
        (onFirst (Bound.on 0 p.textEnded)) :=
      Stays.onFirst (hb.on h.textEnded) fun _ hb' => ⟨hb', rfl⟩
    refine Lasts.loop ?_ ?_ p.fuel
    · exact ⟨hb, rfl⟩
    refine Ends.look (hended.bind ?_)
    rintro _ s ⟨hs, rfl⟩
    exact .pure ⟨(), rfl, hs⟩
  cases ask with
  | current =>
    refine hfill.bind ?_
    rintro _ ⟨b', _⟩ ⟨hb', rfl⟩
    exact Ends.look (.fail ⟨hb', rfl⟩)
  | advance =>
    refine hfill.bind ?_
    rintro _ ⟨b', _⟩ ⟨hb', rfl⟩
    exact .change ⟨⟨hb', rfl⟩, trivial⟩
  | ended =>
    refine hfill.bind ?_
    rintro _ ⟨b', _⟩ ⟨hb', rfl⟩
    exact Ends.look (.pure ⟨⟨hb', rfl⟩, rfl⟩)
  | rewind | count => exact hask.elim

end Lists

section Texts

variable {σ : Type} {ask : TextAsk} (hask : ask.Forward)
include hask

theorem answerLiteral_lasts (bytes : Bytes) :
    Stays feed seen (· = true) ask.SaysOver true (answerLiteral bytes ask) := by
  cases ask with
  | stream => exact Ends.look (.pure ⟨rfl, trivial⟩)
  | ended => exact fun _ _ hw => ⟨⟨rfl, rfl⟩, hw⟩
  | drain | takeNumber => exact hask.elim

theorem answerChunks_lasts (fuel : Nat) {parts : List Bytes} (h : parts.length ≤ position) :
    Stays feed seen (parts.length ≤ ·) ask.SaysOver position (answerChunks fuel parts ask) := by
  cases ask with
  | stream =>
    refine Ends.look ?_
    rw [List.getElem?_eq_none h]
    exact .pure ⟨h, trivial⟩
  | ended => exact Ends.look (.pure ⟨h, by simpa [TextAsk.SaysOver] using h⟩)
  | drain | takeNumber => exact hask.elim

theorem answerInput_lasts (fuel tap : Nat) {offset : Nat} (hbroken : (feed tap).broken = none)
    (hoffset : offset = (feed tap).bytes.length) (hseen : offset ≤ seen tap) :
    Stays feed seen (· = offset) ask.SaysOver offset (answerInput fuel tap ask) := by
  have hfill : Lasts feed seen offset (fillTap tap offset)
      (fun t k => k = offset ∧ t.Drained (feed tap) ∧ t.upto = offset ∧ t.ended = true) fun k => k = offset := by
    intro out w hw
    have hlength : (feed tap).bytes.length ≤ seen tap := hoffset ▸ hseen
    rw [fillTap_run]
    cases hfilled : (w.tapAt tap).fillFor offset with
    | mk t message =>
      obtain ⟨ht, hended⟩ := hw.drained.filled hfilled hbroken hlength
      have hupto : t.upto = offset := hoffset ▸ Nat.le_antisymm (ht.1 ▸ t.upto_le_stock) ht.2
      have hafter : (w.withTap tap t).Resting feed seen out := ⟨hw.drained.withTap fun _ _ => ht, hw.out_eq⟩
      cases message with
      | some message => exact fun _ => ⟨rfl, hafter⟩
      | none => exact ⟨⟨rfl, ht, hupto, hended (Nat.le_of_eq hupto)⟩, hafter⟩
  cases ask with
  | stream =>
    refine Ends.look (Ends.bind (Q := fun upto k => k = offset ∧ upto = offset) (hfill.bind ?_) ?_)
    · rintro t _ ⟨rfl, ht, rfl, -⟩
      have hnone : t.after t.upto = [] := by simp [Tap.after, Tap.upto]
      intro out w hw
      rw [hnone, bind_run, write_run, Sink.write_nil]
      exact ⟨⟨rfl, rfl⟩, hw.drained.withTap fun _ _ => ht, hw.out_eq⟩
    · rintro _ _ ⟨rfl, rfl⟩
      exact .put ⟨rfl, trivial⟩
  | ended =>
    refine Ends.look (hfill.bind ?_)
    rintro t _ ⟨rfl, -, hupto, hended⟩
    exact .pure ⟨rfl, by simp [TextAsk.SaysOver, Tap.atEnd, hupto, hended]⟩
  | drain | takeNumber => exact hask.elim

theorem Once.answer_lasts [Holder σ] [Inhabited σ] (produce : Act σ Bytes) (takeNumber : Act σ (Option Value.Numeric))
    {s : σ × Once} (h : s.2.served = true) :
    Stays feed seen (·.2.served = true) ask.SaysOver s (Once.answer produce takeNumber ask) := by
  cases ask with
  | stream =>
    refine Ends.look ?_
    rw [h]
    exact .pure ⟨h, trivial⟩
  | ended => exact Ends.look (.pure ⟨h, h⟩)
  | drain | takeNumber => exact hask.elim

theorem Concat.answer_lasts (p : Puller) {b : Bound} {state : Concat} (h : state.rest = []) :
    Stays feed seen (·.2.rest = []) ask.SaysOver (b, state) (Concat.answer p ask) := by
  cases ask with
  | stream =>
    refine Ends.look ?_
    rw [h]
    refine Ends.bind (.pure rfl) (Q := fun _ s => s = (b, state)) ?_
    rintro _ _ rfl
    refine Ends.look ?_
    rw [h]
    exact .pure ⟨h, trivial⟩
  | ended =>
    refine Ends.look ?_
    rw [h]
    refine Ends.bind (.pure rfl) (Q := fun _ s => s = (b, state)) ?_
    rintro _ _ rfl
    exact Ends.look (.pure ⟨h, by simp [TextAsk.SaysOver, h]⟩)
  | drain | takeNumber => exact hask.elim

variable (h : p.Rests feed seen)
include h

theorem answerEncoding_lasts (e : Encoding) {b : Bound} (hb : b.ArgOver feed seen 0) :
    Stays feed seen (Bound.ArgOver feed seen 0) ask.SaysOver b (answerEncoding p e ask) := by
  cases ask with
  | stream =>
    refine (hb.on h.next).bind ?_
    rintro _ b' ⟨hb', rfl⟩
    exact .pure ⟨hb', trivial⟩
  | ended => exact hb.on h.listEnded
  | drain | takeNumber => exact hask.elim

omit hask in
theorem Joiner.itemGoesOn_lasts {s : Joiner Value × Value} (hs : Joiner.IsOver feed seen s) :
    Stays feed seen (Joiner.IsOver feed seen) (· = false) s (Joiner.itemGoesOn p) := by
  obtain ⟨⟨separator, item, started⟩, source⟩ := s
  refine Ends.look ?_
  cases item with
  | none => exact .pure ⟨hs, rfl⟩
  | some item =>
    have hended : Stays feed seen (Joiner.IsOver feed seen) (· = true) (⟨separator, some item, started⟩, source)
        (within item (fun item => (⟨separator, some item, started⟩, source)) p.textEnded) := by
      refine Stays.within (h.textEnded (hs.2 item rfl)) fun v hv => ⟨hs.1, ?_⟩
      rintro _ ⟨rfl⟩
      exact hv
    refine hended.bind ?_
    rintro _ s' ⟨hs', rfl⟩
    exact .pure ⟨hs', rfl⟩

theorem Joiner.answer_lasts {s : Joiner Value × Value} (hs : Joiner.IsOver feed seen s) :
    Stays feed seen (Joiner.IsOver feed seen) ask.SaysOver s (Joiner.answer p ask) := by
  cases ask with
  | stream =>
    refine (Joiner.itemGoesOn_lasts h hs).bind ?_
    rintro _ s' ⟨hs', rfl⟩
    refine Ends.bind (Q := fun _ s'' => Joiner.IsOver feed seen s'') (.change ⟨hs'.1, fun _ hitem => ?_⟩) ?_
    · cases hitem
    rintro _ ⟨joiner, source⟩ ⟨hsource, hitem⟩
    have hnext : Stays feed seen (Joiner.IsOver feed seen) (· = none) (joiner, source) (onSecond p.next) :=
      Stays.onSecond (h.next hsource) fun _ hsource' => ⟨hsource', hitem⟩
    refine hnext.bind ?_
    rintro _ s'' ⟨hs'', rfl⟩
    exact .pure ⟨hs'', trivial⟩
  | ended =>
    refine (Joiner.itemGoesOn_lasts h hs).bind ?_
    rintro _ ⟨joiner, source⟩ ⟨⟨hsource, hitem⟩, rfl⟩
    exact Stays.onSecond (h.listEnded hsource) fun _ hsource' => ⟨hsource', hitem⟩
  | drain | takeNumber => exact hask.elim

theorem Joiner.answerJoin_lasts {b : Bound} {joiner : Joiner Value} (hsource : b.args[1]? = some source)
    (hs : Joiner.IsOver feed seen (joiner, source)) :
    Stays feed seen (fun s => (s.1.suspend (.join s.2)).Over feed seen) ask.SaysOver (b, some joiner)
      (Joiner.answerJoin p ask) := by
  have hargs {α : Type} {act : Act (Joiner Value × Value) α} {R : α → Prop}
      (hact : Stays feed seen (Joiner.IsOver feed seen) R (joiner, source) act) :
      Stays feed seen (fun s => (s.1.suspend (.join s.2)).Over feed seen) R (b, some joiner) (Joiner.ofArgs p act) := by
    refine Ends.look (Bound.onFirst_arg_ends (.joining b.name b.ty hsource hs.1 hs.2) fun value hvalue => ?_)
    obtain rfl : source = value := Option.some.inj (hsource.symm.trans hvalue)
    exact Ends.look (Stays.within hact fun s hs =>
      .joining b.name b.ty (List.getElem?_set_self (List.getElem?_eq_some_iff.1 hsource).1) hs.1 hs.2)
  cases ask with
  | stream | ended => exact hargs (Joiner.answer_lasts hask h hs)
  | drain | takeNumber => exact hask.elim

end Texts

theorem Choice.onItem_lasts (p : Puller) (choice : Choice) {act : Act Value α} {R : α → Prop} (b : Bound)
    {item : Value} (h : Stays feed seen (Value.Over feed seen) R item act) :
    Stays feed seen (fun s => (s.1.suspend (.pick choice s.2)).Over feed seen) R (b, some item) (choice.onItem p act) :=
  Ends.look (Ends.look (Stays.within h fun _ hv => .picked _ _ _ _ hv))

theorem answerList_lasts (h : p.Rests feed seen) {ask : ListAsk} (hask : ask.Forward) {value : Value}
    (hvalue : value.Over feed seen) : Stays feed seen (Value.Over feed seen) ask.SaysOver value (answerList p ask) := by
  refine Ends.look ?_
  have hkeep := hvalue
  cases hvalue with
  | list elements hposition =>
    exact Stays.zoom (answerItems_lasts hask hposition) fun _ hposition' => .list elements hposition'
  | recast ty position hsource =>
    exact Stays.within (answerRecast_lasts h hask ty hsource) fun _ hsource' => .recast ty _ hsource'
  | clusters source hcurrent hdone =>
    exact Stays.within (Cutter.answer_lasts p _ .grapheme hask hcurrent hdone)
      fun _ ⟨hcurrent', hdone'⟩ => .clusters _ hcurrent' hdone'
  | defined name doc hinner =>
    exact Stays.within (h.list ask hask hinner) fun _ hinner' => .defined name doc hinner'
  | picked name ty args choice hitem => exact Ends.within (Choice.onItem_lasts p choice _ (h.list ask hask hitem))
  | @done name ty args task htask =>
    cases task with
    | units unit cutter =>
      exact Stays.within (answerUnits_lasts p unit hask htask.1 htask.2) fun _ hcutter => .done _ _ _ hcutter
    | split splitter =>
      exact Stays.within (Splitter.answer_lasts p hask htask.1 htask.2) fun _ hsplitter => .done _ _ _ hsplitter
    | take state =>
      exact Stays.within (Take.answer_lasts h hask (.inl htask)) fun _ hs => hs.suspend
    | reverse state =>
      obtain ⟨items, hitems, hposition⟩ := htask
      exact Stays.within (Reverse.answer_lasts p hask hitems hposition) fun _ hs => .done _ _ _ hs
    | render | concat => exact .fail hkeep
    | _ => exact htask.elim
  | @follows name ty args task k arg htask harg hover =>
    have hb : Bound.ArgOver feed seen k ⟨name, ty, args⟩ := ⟨arg, harg, hover⟩
    cases task with
    | encode e => exact .fail hkeep
    | bytes ahead =>
      obtain ⟨rfl, rfl⟩ := htask
      exact Stays.within (ByteList.answer_lasts h hask hb) fun _ ⟨hb', hahead⟩ => hb'.suspend ⟨hahead, rfl⟩
    | map =>
      obtain rfl : k = 1 := htask
      exact Stays.within (answerMap_lasts h hask hb) fun _ hb' => hb'.suspend rfl
    | zipWith =>
      exact Stays.within (ZipWith.answer_lasts h hask htask hb) fun _ hb' => hb'.suspend htask
    | take state =>
      obtain rfl : k = 1 := htask
      exact Stays.within (Take.answer_lasts h hask (.inr hb)) fun _ hs => hs.suspend
    | drop skipped =>
      obtain ⟨rfl, rfl⟩ := htask
      exact Stays.within (Drop.answer_lasts h hask hb) fun _ ⟨hb', hskipped⟩ => hb'.suspend ⟨hskipped, rfl⟩
    | tail started =>
      obtain ⟨rfl, rfl⟩ := htask
      exact Stays.within (Tail.answer_lasts h hask hb) fun _ ⟨hb', hstarted⟩ => hb'.suspend ⟨hstarted, rfl⟩
    | init state =>
      obtain ⟨hstarted, rfl⟩ := htask
      exact Stays.within (Init.answer_lasts h hask ⟨hb, hstarted⟩) fun _ hs => hs.1.suspend ⟨hs.2, rfl⟩
    | _ => exact htask.elim
  | _ => exact .fail hkeep

theorem answerText_lasts (h : p.Rests feed seen) {ask : TextAsk} (hask : ask.Forward) {value : Value}
    (hvalue : value.Over feed seen) : Stays feed seen (Value.Over feed seen) ask.SaysOver value (answerText p ask) := by
  refine Ends.look ?_
  have hkeep := hvalue
  cases hvalue with
  | text bytes =>
    refine Stays.zoom (answerLiteral_lasts hask bytes) ?_
    rintro _ rfl
    exact .text bytes
  | chunks hposition =>
    exact Stays.zoom (answerChunks_lasts hask p.fuel hposition) fun _ hposition' => .chunks hposition'
  | @input tap offset primary hbroken hoffset hseen =>
    refine Stays.zoom (answerInput_lasts hask p.fuel tap hbroken hoffset hseen) ?_
    rintro _ rfl
    exact hkeep
  | numberText source hserved =>
    exact Stays.within (Once.answer_lasts hask _ _ hserved) fun _ hserved' => .numberText _ hserved'
  | listText hsource hitem =>
    exact Stays.within (Joiner.answer_lasts hask h ⟨hsource, hitem⟩) fun _ hs => .listText hs.1 hs.2
  | defined name doc hinner =>
    exact Stays.within (h.text ask hask hinner) fun _ hinner' => .defined name doc hinner'
  | picked name ty args choice hitem =>
    refine Ends.within ?_
    have hpicked := Choice.onItem_lasts p choice ⟨name, ty, args⟩ (h.text ask hask hitem)
    cases ask with
    | stream | ended => exact hpicked
    | drain | takeNumber => exact hask.elim
  | @joining name ty args joiner source hsource hover hitem =>
    exact Ends.within (Joiner.answerJoin_lasts hask h (b := ⟨name, ty, args⟩) hsource ⟨hover, hitem⟩)
  | @done name ty args task htask =>
    cases task with
    | render r once =>
      exact Stays.within (Once.answer_lasts hask _ _ (s := ((⟨name, ty, args⟩ : Bound), once)) htask)
        fun _ hserved => .done _ _ _ hserved
    | concat state =>
      exact Stays.within (Concat.answer_lasts hask p htask) fun _ hrest => .done _ _ _ hrest
    | units | split | take | reverse => exact .fail hkeep
    | _ => exact htask.elim
  | @follows name ty args task k arg htask harg hover =>
    have hb : Bound.ArgOver feed seen k ⟨name, ty, args⟩ := ⟨arg, harg, hover⟩
    cases task with
    | encode e =>
      obtain rfl : k = 0 := htask
      exact Stays.within (answerEncoding_lasts hask h e hb) fun _ hb' => hb'.suspend rfl
    | bytes | map | zipWith | take | drop | tail | init => exact .fail hkeep
    | _ => exact htask.elim
  | _ => exact .fail hkeep

theorem requireFor_lasts {value : Value} (hvalue : value.Over feed seen) (ask : Ask) :
    Lasts feed seen value (requireFor ask) (fun _ v => v.Over feed seen) fun v => v.Over feed seen := by
  refine Ends.look ?_
  split
  · exact .pure hvalue
  · exact .fail hvalue

theorem rests_puller (feed : Feed) (seen : Reach) (n : Nat) : (puller n).Rests feed seen := by
  induction n with
  | zero =>
    exact ⟨steady_puller 0, fun _ _ _ hvalue => .outOfFuel fun _ => hvalue, fun _ _ _ hvalue => .outOfFuel fun _ => hvalue⟩
  | succ n ih =>
    refine ⟨steady_puller (n + 1), fun ask value hask hvalue => ?_, fun ask value hask hvalue => ?_⟩
    · exact (requireFor_lasts hvalue (.text ask)).bind fun _ _ => answerText_lasts ih hask
    · exact (requireFor_lasts hvalue (.list ask)).bind fun _ _ => answerList_lasts ih hask

end PullScript
