import PullScript.Proofs.Copies.Keeping

namespace PullScript

open Act

variable {α σ τ : Type} {feed : Feed} {clean : Bool} {p : Puller} (h : Retentive feed p)
  {I : Bool → Bound → Prop} [Weakens I] (hI : ∀ k, Bound.Yielding feed I k)

theorem Calculation.run_upholds_of_on {I : Bool → Bound → Prop} {p : Puller}
    (hnumber : ∀ k, Upholds I (Bound.on k p.number)) (hread : ∀ k, Upholds I (Bound.on k (readAll p)))
    (hfront : ∀ k more, Upholds I (Bound.on k (readWhile p more)))
    (hsearch : ∀ k needle, Upholds I (Bound.on k (searchFor p needle))) (c : Calculation) : Upholds I (c.run p) := by
  cases c with
  | abs => exact (hnumber 0).bind fun _ => .pure
  | add => exact (hnumber 0).bind fun _ => (hnumber 1).bind fun _ => .pure
  | sub => exact (hnumber 0).bind fun _ => (hnumber 1).bind fun _ => .pure
  | mul => exact (hnumber 0).bind fun _ => (hnumber 1).bind fun _ => .pure
  | div => exact (hnumber 0).bind fun _ => (hnumber 1).bind fun _ => .pure
  | leadingNumber => exact (hfront 0 _).bind fun _ => .pure
  | fromBase base => exact (hread 0).bind fun _ => .pure
  | codePoint =>
    refine (hfront 0 _).bind fun bytes => ?_
    split <;> exact .pure
  | contains =>
    refine (hread 0).bind fun needle => ?_
    split
    · exact .pure
    · exact (hsearch 1 needle).bind fun _ => .pure
  | startsWith => exact (hread 0).bind fun _ => (hfront 1 _).bind fun _ => .pure
  | endsWith => exact (hread 0).bind fun _ => (hread 1).bind fun _ => .pure

section

include h hI

theorem Calculation.run_upholds (c : Calculation) : Upholds I (c.run p) :=
  c.run_upholds_of_on (fun k => (hI k).on h.number) (fun k => (hI k).on h.readAll)
    (fun k _ => (hI k).on (h.readWhile _)) fun k needle => (hI k).on (h.searchFor needle)

theorem calculated_upholds (c : Calculation) : Upholds (First I) (calculated p c) := by
  refine .look fun s => ?_
  split
  · exact .pure
  · exact .bind (.onFirst (c.run_upholds h hI)) fun _ => .bind (.changeSecond fun _ => rfl) fun _ => .pure

theorem Rendering.run_upholds (r : Rendering) : Upholds I (r.run p) := by
  have hnumber : Upholds I (Bound.on 0 p.number) := (hI 0).on h.number
  cases r with
  | decimal => exact hnumber.bind fun _ => .pure
  | inBase base => exact hnumber.bind fun _ => .bind .ofOption fun _ => .pure
  | character =>
    refine hnumber.bind fun n => ?_
    split
    · split
      · exact .pure
      · exact .fail
    · exact .fail

end

theorem Once.answer_upholds [Holder σ] [Inhabited σ] {I : Bool → σ × Once → Prop} [Weakens I] {produce : Act σ Bytes}
    {takeNumber : Act σ (Option Value.Numeric)} (hbytes : Upholds I (Once.bytes produce))
    (hserved : ∀ ⦃clean s⦄, I clean s → I clean (s.1, { s.2 with served := true })) {ask : TextAsk}
    (hask : ask ≠ .takeNumber) : Upholds I (Once.answer produce takeNumber ask) := by
  have hserve : Upholds I (Once.serve produce) := hbytes.bind fun _ => .bind .write fun _ => .change hserved
  cases ask with
  | stream =>
    refine .look fun s => ?_
    split
    · exact .pure
    · exact hserve
  | ended => exact .look fun _ => .pure
  | drain => exact hserve
  | takeNumber => exact absurd rfl hask

def Once.Kept (feed : Feed) (source : Value) (clean : Bool) (s : Option Value × Once) : Prop :=
  ∃ source', s.1 = some source' ∧ Value.Kept feed source clean source' ∧
    Noted feed numberForm (some source) clean (some source') s.2.known

instance {source : Value} : Weakens (Once.Kept feed source) :=
  ⟨fun ⟨source', hs, hkept, hnoted⟩ => ⟨source', hs, hkept.weaken, hnoted.weaken⟩⟩

theorem Once.Kept.value {source : Value} {s : Option Value × Once} (hs : Once.Kept feed source clean s)
    (hsource : source.Sealed) : Value.Kept feed (.numberText (some source) {}) clean (.numberText s.1 s.2) := by
  obtain ⟨source', hs, hkept, hnoted⟩ := hs
  rw [hs]
  exact .numberText hsource hkept hnoted

section

include h

theorem numberBytes_upholds {source : Value} (hsource : source.Sealed) :
    Upholds (Once.Kept feed source) (Once.bytes (numberBytes p)) := by
  rintro clean ⟨_, known, served⟩ ⟨source', rfl, hkept, hnoted⟩
  refine Ends.look ?_
  cases known with
  | some bytes => exact .pure ⟨source', rfl, hkept, hnoted⟩
  | none =>
    have hmade : Settles (some source') (numberBytes p)
        (fun bytes left => Once.Kept feed source clean (left, ⟨some bytes, served⟩))
        fun left => Once.Kept feed source false (left, ⟨none, served⟩) := by
      refine Ends.bind (Q := fun x left => Once.Kept feed source clean (left, ⟨some (numberForm x), served⟩))
        (Ends.within ?_) fun x left hleft => .pure hleft
      exact (h.noting hsource hkept hnoted).imp (fun x v hv => ⟨v, rfl, hv⟩) fun v hv => ⟨v, rfl, hv⟩
    refine Ends.bind (Q := fun bytes s => Once.Kept feed source clean (s.1, ⟨some bytes, served⟩))
      (Ends.look (Ends.within hmade)) fun bytes s hs => ?_
    exact Ends.bind (Ends.change hs) fun _ _ hs => .pure hs

end

/-- What is left of a list that is seen as a text, with the separator of its items. -/
def Joiner.Kept (feed : Feed) (source : Value) (separator : Bytes) (clean : Bool) (s : Joiner Value × Value) :
    Prop :=
  Value.Kept feed source clean s.2 ∧ s.1.separator = separator

instance {source : Value} {separator : Bytes} : Weakens (Joiner.Kept feed source separator) :=
  ⟨fun h => ⟨h.1.weaken, h.2⟩⟩

namespace Joiner

variable {source : Value} {separator : Bytes}

theorem onSecond_upholds {act : Act Value α} (hact : Value.Upheld feed act) :
    Upholds (Joiner.Kept feed source separator) (onSecond act) :=
  fun _ _ hs => Ends.look ((hact source).within hs.1 fun _ _ hv => ⟨hv, hs.2⟩)

theorem change_upholds {f : Joiner Value × Value → Joiner Value × Value}
    (hf : ∀ s, (f s).1.separator = s.1.separator ∧ (f s).2 = s.2) :
    Upholds (Joiner.Kept feed source separator) (change f) := by
  refine .change fun clean s hs => ⟨?_, (hf s).1.trans hs.2⟩
  rw [(hf s).2]
  exact hs.1

theorem withinItem_settles {s : Joiner Value × Value} (joiner : Joiner Value) (left : Value)
    (hs : Joiner.Kept feed source separator clean (joiner, left)) (item : Value) (act : Act Value α) :
    Retains (Joiner.Kept feed source separator) clean s
      (within item (fun item => ({ joiner with item := some item }, left)) act) :=
  Ends.within (Ends.any (fun _ _ => hs) fun _ => ⟨hs.1.weaken, hs.2⟩)

theorem itemGoesOn_upholds : Upholds (Joiner.Kept feed source separator) (itemGoesOn p) := by
  rintro clean ⟨⟨_, _ | item, started⟩, left⟩ hs
  · exact .pure hs
  · exact Ends.look (Ends.bind (withinItem_settles ⟨_, some item, started⟩ left hs item p.textEnded)
      fun _ _ hs => .pure hs)

theorem streamItem_upholds : Upholds (Joiner.Kept feed source separator) (streamItem p) := by
  rintro clean ⟨⟨_, _ | item, started⟩, left⟩ hs
  · exact .pure hs
  · exact Ends.look (withinItem_settles ⟨_, some item, started⟩ left hs item p.stream)

theorem begin_upholds (item : Value) : Upholds (Joiner.Kept feed source separator) (do
    change fun (joiner, source) => ({ joiner with started := true }, source)
    let text ← coerce p item (.str false)
    let ((), text) ← aside text p.stream
    change fun (joiner, source) => ({ joiner with item := some text }, source)) :=
  .bind (change_upholds fun _ => ⟨rfl, rfl⟩) fun _ => .bind (.still (coerce_still p item _)) fun _ =>
    .bind .aside fun _ => change_upholds fun _ => ⟨rfl, rfl⟩

include h

theorem streamNext_upholds : Upholds (Joiner.Kept feed source separator) (streamNext p) := by
  refine .bind (change_upholds fun _ => ⟨rfl, rfl⟩) fun _ => .bind (onSecond_upholds h.next) fun item => ?_
  cases item with
  | none => exact .pure
  | some item =>
    refine .look fun s => ?_
    dsimp only
    split
    · exact .bind .write fun _ => begin_upholds item
    · exact begin_upholds item

theorem stream_upholds : Upholds (Joiner.Kept feed source separator) (stream p) := by
  refine .bind itemGoesOn_upholds fun goesOn => ?_
  cases goesOn with
  | true => exact streamItem_upholds
  | false => exact streamNext_upholds h

theorem ended_upholds : Upholds (Joiner.Kept feed source separator) (ended p) := by
  refine .bind itemGoesOn_upholds fun goesOn => ?_
  cases goesOn with
  | true => exact .pure
  | false => exact onSecond_upholds h.listEnded

theorem answer_upholds (ask : TextAsk) : Upholds (Joiner.Kept feed source separator) (answer p ask) := by
  cases ask with
  | stream => exact stream_upholds h
  | ended => exact ended_upholds h
  | drain => exact .drainBySteps (ended_upholds h) (stream_upholds h) _
  | takeNumber => exact .pure

omit h in
include hI in
theorem onArgument_upholds {act : Act (Joiner Value × Value) α}
    (hact : ∀ source separator, Upholds (Joiner.Kept feed source separator) act) : Upholds (First I) (do
      let source ← onFirst (Bound.arg 1)
      let (b, joiner) ← look
      within (joiner.getD { separator := [] }, source)
        (fun (joiner, source) => ({ b with args := b.args.set 1 source }, some joiner)) act :
        Act (Bound × Option (Joiner Value)) α) := by
  refine fun clean s hs => Bound.onFirst_arg_ends (Weakens.weaken hs) fun value hvalue => Ends.look ?_
  refine (hI 1).within hs hvalue (fun _ => rfl) fun a clean s hs => ?_
  exact (hact a s.1.separator ⟨hs, rfl⟩).imp (fun _ _ hs => hs.1) fun _ hs => hs.1

include hI

theorem ofArgs_upholds {act : Act (Joiner Value × Value) α}
    (hact : ∀ source separator, Upholds (Joiner.Kept feed source separator) act) :
    Upholds (First I) (ofArgs p act) := by
  refine .look fun s => ?_
  dsimp only
  split
  · exact .bind (.onFirst ((hI 0).on h.readAll)) fun _ =>
      .bind (.changeSecond fun _ => rfl) fun _ => onArgument_upholds hI hact
  · exact onArgument_upholds hI hact

theorem answerJoin_upholds (ask : TextAsk) : Upholds (First I) (answerJoin p ask) := by
  have hended : Upholds (First I) (ofArgs p (ended p)) :=
    ofArgs_upholds h hI fun _ _ => ended_upholds h
  have hstream : Upholds (First I) (ofArgs p (stream p)) :=
    ofArgs_upholds h hI fun _ _ => stream_upholds h
  cases ask with
  | stream => exact hstream
  | ended => exact hended
  | drain => exact .drainBySteps hended hstream _
  | takeNumber => exact .pure

end Joiner

section

include h hI

theorem answerEncoding_upholds (e : Encoding) (ask : TextAsk) : Upholds I (answerEncoding p e ask) := by
  have hended : Upholds I (answerEncoding.ended p) :=
    (hI 0).on h.listEnded
  have hstream : Upholds I (answerEncoding.stream p e) := by
    refine .bind ((hI 0).on h.next) fun item => ?_
    cases item with
    | none => exact .pure
    | some item => exact .bind .aside fun _ => .write
  cases ask with
  | stream => exact hstream
  | ended => exact hended
  | drain => exact .drainBySteps hended hstream _
  | takeNumber => exact .pure

end

/-- What is left of texts one after the other, with the order that they are in. -/
def Concat.Kept (I : Bool → Bound → Prop) (order : List Nat) (clean : Bool) (s : Bound × Concat) : Prop :=
  I clean s.1 ∧ s.2.order = order

instance {order : List Nat} : Weakens (Concat.Kept I order) :=
  ⟨fun h => ⟨Weakens.weaken h.1, h.2⟩⟩

namespace Concat

variable {order : List Nat}

omit [Weakens I] in
theorem onFirst_upholds {act : Act Bound α} (hact : Upholds I act) : Upholds (Concat.Kept I order) (onFirst act) :=
  fun _ _ hs => Ends.look (hact.within hs.1 fun _ _ hb => ⟨hb, hs.2⟩)

include h hI

theorem skipEnded_upholds (rest : List Nat) : Upholds (Concat.Kept I order) (skipEnded p rest) := by
  induction rest with
  | nil => exact .pure
  | cons k rest ih =>
    refine .bind (onFirst_upholds ((hI k).on h.textEnded)) fun e => ?_
    cases e with
    | true => exact .bind (.change fun _ _ hs => hs) fun _ => ih
    | false => exact .pure

theorem stream_upholds : Upholds (Concat.Kept I order) (stream p) := by
  refine .look fun s => .bind (skipEnded_upholds h hI _) fun _ => .look fun s' => ?_
  split
  · exact .pure
  case h_2 k _ _ => exact onFirst_upholds ((hI k).on h.stream)

theorem ended_upholds : Upholds (Concat.Kept I order) (ended p) :=
  .look fun _ => .bind (skipEnded_upholds h hI _) fun _ => .look fun _ => .pure

theorem answer_upholds (ask : TextAsk) : Upholds (Concat.Kept I order) (answer p ask) := by
  cases ask with
  | stream => exact stream_upholds h hI
  | ended => exact ended_upholds h hI
  | drain => exact .drainBySteps (ended_upholds h hI) (stream_upholds h hI) _
  | takeNumber => exact .pure

end Concat

section

include h

theorem streamMore_upholds (source : Value) : Upholds (Second (Value.Kept feed source)) (streamMore p) :=
  .gather (h.stream source)

end

namespace Cutter

variable (source : Value) (unit : TextUnit)

theorem onPending_upholds {act : Act (Bytes × Value) α} (hact : Upholds (Second (Value.Kept feed source)) act) :
    Upholds (Second (Value.Kept feed source)) (onPending act) :=
  fun _ s hs => Ends.look (Ends.within (hact (show Second _ _ (s.1.pending, s.2) from hs)))

include h

theorem settle_upholds : Upholds (Second (Value.Kept feed source)) (settle p unit) := by
  refine .loop (fun _ => .look fun s => ?_) _ _
  dsimp only
  split
  · exact .pure
  · refine .bind (.onSecond (h.textEnded source)) fun e => ?_
    cases e with
    | true => exact .pure
    | false => exact .bind (onPending_upholds source (streamMore_upholds h source)) fun _ => .pure

theorem next_upholds : Upholds (Second (Value.Kept feed source)) (next p unit) := by
  refine .bind (settle_upholds h source unit) fun _ => .look fun s => ?_
  dsimp only
  split
  · exact .pure
  · exact .bind (.change fun _ _ hs => hs) fun _ => .pure

theorem fetch_upholds : Upholds (Second (Value.Kept feed source)) (fetch p unit) := by
  refine .look fun s => ?_
  dsimp only
  split
  · exact .bind (next_upholds h source unit) fun _ => .change fun _ _ hs => hs
  · exact .pure

theorem answer_upholds (ty : Ty) (ask : ListAsk) :
    Upholds (Second (Value.Kept feed source)) (answer p ty unit ask) := by
  have hfetch := fetch_upholds h source unit
  cases ask with
  | current =>
    refine .bind (.bind hfetch fun _ => .look fun s => ?_) fun _ => .pure
    split
    · exact .pure
    · exact .fail
  | advance => exact hfetch.bind fun _ => .change fun _ _ hs => hs
  | ended => exact hfetch.bind fun _ => .look fun _ => .pure
  | rewind => exact .fail
  | count => exact .fail

end Cutter

section

include h hI

theorem answerUnits_upholds (unit : TextUnit) (ask : ListAsk) : Upholds (First I) (answerUnits p unit ask) := by
  refine fun clean s hs => Bound.onFirst_arg_ends (Weakens.weaken hs) fun value hvalue => Ends.look ?_
  exact (hI 0).within hs hvalue (fun _ => rfl) fun a => Cutter.answer_upholds h a unit s.1.ty ask

theorem ByteList.fill_upholds : Upholds (First I) (ByteList.fill p) := by
  refine .loop (fun _ => .look fun s => ?_) _ _
  split
  · exact .pure
  · refine .bind (.onFirst ((hI 0).on h.textEnded)) fun e => ?_
    cases e with
    | true => exact .pure
    | false =>
      refine fun clean s hs => Ends.look (Bound.onFirst_arg_ends (Weakens.weaken hs) fun value hvalue => ?_)
      exact ((hI 0).within hs hvalue (fun _ => rfl) (streamMore_upholds h)).bind fun _ _ hs => .pure hs

theorem ByteList.answer_upholds (ask : ListAsk) : Upholds (First I) (ByteList.answer p ask) := by
  have hfill : Upholds (First I) (ByteList.fill p) := ByteList.fill_upholds h hI
  cases ask with
  | current =>
    refine hfill.bind fun _ => .look fun s => ?_
    split
    · exact .pure
    · exact .fail
  | advance => exact hfill.bind fun _ => .changeSecond fun _ => rfl
  | ended => exact hfill.bind fun _ => .look fun _ => .pure
  | rewind => exact .look fun _ => .fail
  | count => exact .look fun _ => .fail

end

namespace Splitter

include h hI

theorem readSeparator_upholds : Upholds (First I) (readSeparator p) := by
  refine .look fun s => ?_
  split
  · exact .pure
  · exact .bind (.onFirst ((hI 0).on h.readAll)) fun _ =>
      .bind (.changeSecond fun _ => rfl) fun _ => .pure

theorem cutPiece_upholds (separator : Bytes) : Upholds (First I) (cutPiece p separator) := by
  refine .loop (fun _ clean s hs => Ends.look ?_) _ _
  dsimp only
  split
  · exact Ends.bind (Ends.put hs) fun _ _ hs => .pure hs
  · refine Ends.bind (Upholds.onFirst ((hI 1).on h.textEnded) hs) fun e s hs => ?_
    cases e with
    | true => exact Ends.bind (Ends.change hs) fun _ _ hs => .pure hs
    | false =>
      refine Ends.look (Bound.onFirst_arg_ends (Weakens.weaken hs) fun value hvalue => ?_)
      exact ((hI 1).within hs hvalue (fun _ => rfl) (streamMore_upholds h)).bind fun _ _ hs => .pure hs

theorem fetch_upholds : Upholds (First I) (fetch p) := by
  refine .look fun s => ?_
  dsimp only
  split
  · refine .bind (readSeparator_upholds h hI) fun separator => ?_
    split
    · exact .changeSecond fun _ => rfl
    · exact cutPiece_upholds h hI separator
  · exact .pure

theorem answer_upholds (ask : ListAsk) : Upholds (First I) (answer p ask) := by
  have hfetch : Upholds (First I) (fetch p) := fetch_upholds h hI
  cases ask with
  | current =>
    refine hfetch.bind fun _ => .look fun s => ?_
    split
    · exact .pure
    · exact .fail
  | advance => exact hfetch.bind fun _ => .changeSecond fun _ => rfl
  | ended => exact hfetch.bind fun _ => .look fun _ => .pure
  | rewind => exact .look fun _ => .fail
  | count => exact .look fun _ => .fail

end Splitter

end PullScript
