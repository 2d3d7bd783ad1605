import PullScript.Proofs.View.Spilling

namespace PullScript

open Act

variable {σ α : Type} {feed : Feed} {n k i : Nat} {seen : Reach} {p : Bytes} {value value' : Value}

/-- The fronts of what is streamed at a place among the items of a list, `L` saying which fronts the items have. -/
def JoinPlace.Leads (feed : Feed) (source : Value) (separator : Bytes) (L : Value → Nat → Bytes → Prop)
    (place : JoinPlace) (p : Bytes) : Prop :=
  ∃ goes, place.goesOn.Gives feed goes ∧
    match goes with
    | true => ∃ text q, place.item = some (text, q) ∧ L text q p
    | false => ∃ item, ((ListView.of source).next place.index).Gives feed item ∧
      match item with
      | none => False
      | some item => p = place.front separator ∨
        ∃ q, (∃ text, (View.coerced item (.str false)).Gives feed text ∧ L text 0 q) ∧ p = place.front separator ++ q

def JoinPlace.LeadsAt (feed : Feed) (source : Value) (separator : Bytes) (L : Value → Nat → Bytes → Prop)
    (i : Nat) (p : Bytes) : Prop :=
  ∃ place, (TextView.placeAfter ⟨none, 0⟩ (JoinPlace.next (.of source) separator) i).Gives feed place ∧
    place.Leads feed source separator L p

def ConcatPlace.LeadsAt (feed : Feed) (b : Bound) (order : List Nat) (L : Value → Nat → Bytes → Prop) (i : Nat)
    (p : Bytes) : Prop :=
  ∃ place, (do
      let place ← TextView.placeAfter (⟨order, fun _ => 0⟩ : ConcatPlace) (ConcatPlace.next b) i
      ConcatPlace.settled b place.rest place.places).Gives feed place ∧
    match place.rest with
    | [] => False
    | k :: _ => ∃ arg, b.args[k]? = some arg ∧ L arg (place.places k) p

/-- The fronts of what a text streams at a place, by way of those of the values that it is made of. -/
def Value.LeadsBy (feed : Feed) (L : Value → Nat → Bytes → Prop) : Value → Nat → Bytes → Prop
  | .listText source joiner => JoinPlace.LeadsAt feed source joiner.separator L
  | .defined _ _ value => L value
  | .suspended name ty args (.concat state) => ConcatPlace.LeadsAt feed ⟨name, ty, args⟩ state.order L
  | .suspended name ty args (.join _) => fun i p =>
    ∃ separator, (View.argBytes ⟨name, ty, args⟩ 0).Gives feed separator ∧
      ∃ source, args[1]? = some source ∧ JoinPlace.LeadsAt feed source separator L i p
  | .suspended name ty args (.pick choice _) => fun i p =>
    ∃ item, (choice.view ⟨name, ty, args⟩).Gives feed item ∧ L item i p
  | _ => fun _ _ => False

/-- The fronts of what a text streams at a place that are seen by looking so many deep. -/
def Value.Leads (feed : Feed) : Nat → Value → Nat → Bytes → Prop
  | 0, _, _, _ => False
  | k + 1, value, i, p => value.kind = .str ∧ value.LeadsBy feed (Value.Leads feed k) i p

/-- What a text that is drained may have streamed halfway, by way of the values that it is made of. -/
def Value.EmitsBy (feed : Feed) (L : Value → Nat → Bytes → Prop) (D : Value → Bytes → Prop) :
    Value → Bytes → Prop
  | .text .. | .numberText .. | .suspended _ _ _ (.render ..) => fun _ => False
  | .defined _ _ value => D value
  | .suspended name ty args (.pick choice _) => fun p => ∃ item, (choice.view ⟨name, ty, args⟩).Gives feed item ∧ D item p
  | value => (TextView.ofValue feed value).Emits feed (value.LeadsBy feed L)

/-- What a text that is drained may have streamed halfway that is seen by looking so many deep. -/
def Value.Emits (feed : Feed) : Nat → Value → Bytes → Prop
  | 0, _, _ => False
  | k + 1, value, p => value.kind = .str ∧ value.EmitsBy feed (Value.Leads feed k) (Value.Emits feed k) p

def LeadsWell (feed : Feed) (L : Value → Nat → Bytes → Prop) : Prop :=
  ∀ {value i p chunk}, L value i p → ((TextView.of value).next i).Gives feed chunk →
    ∃ bytes, chunk = some bytes ∧ p <+: bytes

section

variable {L : Value → Nat → Bytes → Prop} {separator : Bytes} {source : Value} {chunk : Option Bytes} {b : Bound}

theorem JoinPlace.LeadsAt.ended (h : JoinPlace.LeadsAt feed source separator L i p) :
    ((TextView.joined (.of source) separator).ended i).Gives feed false := by
  obtain ⟨place, hplace, goes, hgoes, h⟩ := h
  refine hplace.bind (hgoes.bind ?_)
  cases goes with
  | true => exact .pure _
  | false =>
    obtain ⟨_ | item, hnext, h⟩ := h
    · exact h.elim
    · exact ListView.ended_of_next hnext

theorem JoinPlace.LeadsAt.isPrefix (hL : LeadsWell feed L) (h : JoinPlace.LeadsAt feed source separator L i p)
    (hchunk : ((TextView.joined (.of source) separator).next i).Gives feed chunk) :
    ∃ bytes, chunk = some bytes ∧ p <+: bytes := by
  obtain ⟨place, hplace, goes, hgoes, h⟩ := h
  rw [TextView.joined_next] at hchunk
  obtain ⟨place', hplace', hchunk⟩ := View.gives_bind_iff.1 hchunk
  obtain rfl := hplace.unique hplace'
  obtain ⟨goes', hgoes', hchunk⟩ := View.gives_bind_iff.1 hchunk
  obtain rfl := hgoes.unique hgoes'
  cases goes with
  | true =>
    obtain ⟨text, q, hitem, hp⟩ := h
    simp only [if_true, JoinPlace.itemNext, hitem] at hchunk
    exact hL hp hchunk
  | false =>
    obtain ⟨item, hnext, h⟩ := h
    obtain ⟨item', hnext', hchunk⟩ := View.gives_bind_iff.1 hchunk
    obtain rfl := hnext.unique hnext'
    cases item with
    | none => exact h.elim
    | some item =>
      obtain ⟨text, htext, hchunk⟩ := View.gives_bind_iff.1 hchunk
      obtain ⟨first, hfirst, hchunk⟩ := View.gives_bind_iff.1 hchunk
      obtain rfl := View.gives_pure_iff.1 hchunk
      obtain rfl | ⟨q, ⟨text', htext', hq⟩, rfl⟩ := h
      · exact ⟨_, rfl, List.prefix_append ..⟩
      · obtain rfl := htext.unique htext'
        obtain ⟨bytes, rfl, hprefix⟩ := hL hq hfirst
        exact ⟨_, rfl, (List.prefix_append_right_inj _).2 hprefix⟩

theorem ConcatPlace.LeadsAt.ended {order : List Nat} (h : ConcatPlace.LeadsAt feed b order L i p) :
    ((TextView.concatenated b order).ended i).Gives feed false := by
  obtain ⟨place, hplace, h⟩ := h
  obtain ⟨before, hbefore, hsettled⟩ := View.gives_bind_iff.1 hplace
  refine hbefore.bind (hsettled.bind (View.gives_pure_iff.2 ?_))
  cases hrest : place.rest with
  | nil =>
    rw [hrest] at h
    exact h.elim
  | cons k rest => rfl

theorem ConcatPlace.LeadsAt.isPrefix {order : List Nat} (hL : LeadsWell feed L)
    (h : ConcatPlace.LeadsAt feed b order L i p) (hchunk : ((TextView.concatenated b order).next i).Gives feed chunk) :
    ∃ bytes, chunk = some bytes ∧ p <+: bytes := by
  obtain ⟨place, hplace, h⟩ := h
  rw [TextView.concatenated_next, ← bind_assoc] at hchunk
  obtain ⟨place', hplace', hchunk⟩ := View.gives_bind_iff.1 hchunk
  obtain rfl := hplace.unique hplace'
  obtain ⟨_ | ⟨k, rest⟩, places⟩ := place
  · exact h.elim
  · obtain ⟨arg, harg, hp⟩ := h
    dsimp only at hchunk
    rw [TextView.arg_eq harg] at hchunk
    exact hL hp hchunk

theorem Value.LeadsBy.isPrefix (hL : LeadsWell feed L) (h : value.LeadsBy feed L i p)
    (hchunk : ((TextView.ofValue feed value).next i).Gives feed chunk) : ∃ bytes, chunk = some bytes ∧ p <+: bytes := by
  cases value with
  | listText source joiner => exact JoinPlace.LeadsAt.isPrefix hL h hchunk
  | defined name doc value => exact hL h hchunk
  | suspended name ty args task =>
    cases task with
    | concat state => exact ConcatPlace.LeadsAt.isPrefix hL h hchunk
    | join joiner =>
      obtain ⟨separator, hseparator, source, hsource, h⟩ := h
      rw [TextView.ofValue, TextView.after_next] at hchunk
      obtain ⟨separator', hseparator', hchunk⟩ := View.gives_bind_iff.1 hchunk
      obtain rfl := hseparator.unique hseparator'
      rw [ListView.arg_eq (b := ⟨name, ty, args⟩) hsource] at hchunk
      exact h.isPrefix hL hchunk
    | pick choice item =>
      obtain ⟨item, hitem, h⟩ := h
      rw [TextView.ofValue, TextView.after_next] at hchunk
      obtain ⟨item', hitem', hchunk⟩ := View.gives_bind_iff.1 hchunk
      obtain rfl := hitem.unique hitem'
      exact hL h hchunk
    | _ => exact h.elim
  | _ => exact h.elim

end

theorem Value.leadsWell (feed : Feed) (k : Nat) : LeadsWell feed (Value.Leads feed k) := by
  induction k with
  | zero => exact fun h => h.elim
  | succ k ih => exact fun ⟨hkind, h⟩ hchunk => h.isPrefix ih ((TextView.next_of_gives_iff hkind).1 hchunk)

structure Halts (feed : Feed) (n : Nat) : Prop where
  stream : ∀ {seen : Reach} {value value' : Value} {i : Nat}, value.Unpulled → value.At feed seen i value' →
    Spills feed n seen value' (fun f => (puller f).stream) fun k p => value.Leads feed k i p
  drain : ∀ {seen : Reach} {value value' : Value}, value.Unpulled → value.At feed seen 0 value' →
    Spills feed n seen value' (fun f => (puller f).drain) fun k p => value.Emits feed k p

def Joiner.begin (p : Puller) (item : Value) : Act (Joiner Value × Value) Unit := do
  change fun (joiner, source) => ({ joiner with started := true }, source)
  let text ← coerce p item (.str false)
  let ((), text) ← aside text p.stream
  change fun (joiner, source) => ({ joiner with item := some text }, source)

theorem Joiner.begin_steps {p : Puller} (h : p.Steady) (item : Value) : Usual true (Joiner.begin p item) :=
  .bind (.change _) fun _ => .bind (coerce_steps h item _) fun text => .bind (.aside text h.stream) fun _ => .change _

section

variable (h : Halts feed n)
include h

section Joiner

variable {source text : Value} {separator : Bytes} {place : JoinPlace} {q : Nat} {s : Joiner Value × Value}

theorem Joiner.streamItem_spills (hsource : source.Unpulled)
    (hplace : (TextView.placeAfter ⟨none, 0⟩ (JoinPlace.next (.of source) separator) i).Gives feed place)
    (hgoes : place.goesOn.Gives feed true) (hs : Joiner.Stands feed source separator place text q seen s) :
    Spills feed n seen s (fun f => Joiner.streamItem (puller f)) fun k p =>
      ∃ text q, place.item = some (text, q) ∧ text.Leads feed k q p := by
  obtain ⟨⟨separator', item, started⟩, source'⟩ := s
  cases item with
  | none => cases hgoes.unique (hs.joiner.idle rfl)
  | some item =>
    obtain ⟨_, index⟩ := place
    obtain rfl := hs.joiner.busy rfl
    refine Spills.look ((h.stream (JoinPlace.item_unpulled hsource hplace rfl) (hs.item item rfl)).within.iff ?_)
    refine fun k p => ⟨?_, fun hp => ⟨text, q, rfl, hp⟩⟩
    rintro ⟨_, _, ⟨⟩, hp⟩
    exact hp

theorem Joiner.begin_spills {item : Value} (hitem : item.Unpulled) :
    Spills feed n seen s (fun f => Joiner.begin (puller f) item)
      fun k p => ∃ text, (View.coerced item (.str false)).Gives feed text ∧ text.Leads feed k 0 p := by
  refine Spills.afterChange (Spills.bind (fun k => coerce_tells (pulls feed k) hitem (.str false))
    (fun k => (coerce_steps (steady_puller k) item _).quiet_run) ?_)
  rintro seen₁ _ text _ _ - htext ⟨rfl, rfl, rfl⟩
  have hunpulled := View.Gives.coerced_unpulled hitem htext
  exact (h.stream hunpulled hunpulled.at_start).aside fun text (s : Joiner Value × Value) =>
    ({ s.1 with item := some text }, s.2)

theorem Joiner.streamNext_spills (hsource : source.Unpulled)
    (hs : Joiner.Stands feed source separator place text q seen s) :
    Spills feed n seen s (fun f => Joiner.streamNext (puller f)) fun k p =>
      ∃ item, ((ListView.of source).next place.index).Gives feed item ∧
        match item with
        | none => False
        | some item => p = place.front separator ∨
          ∃ q, (∃ text, (View.coerced item (.str false)).Gives feed text ∧ text.Leads feed k 0 q) ∧
            p = place.front separator ++ q := by
  obtain ⟨⟨separator', item, started⟩, source'⟩ := s
  obtain rfl : separator' = separator := hs.joiner.separator_eq
  obtain rfl : started = decide (0 < place.index) := hs.joiner.started_eq
  refine Spills.afterChange (Spills.bind (fun k => Tells.onSecond (((pulls feed k).list hsource).next hs.source))
    (fun k => (steady_puller k).next.onSecond.quiet_run) ?_)
  rintro seen₁ _ item _ _ - hnext ⟨rfl, rfl, source₁, rfl, -⟩
  cases item with
  | none => exact .late (.pure ())
  | some item =>
    have hbegin : Spills feed n seen₁ (⟨separator', none, decide (0 < place.index)⟩, source₁)
        (fun f => Joiner.begin (puller f) item) _ :=
      Joiner.begin_spills h (ListView.unpulled_of_next_of hsource hnext)
    have hbegun := hbegin.afterWrite (place.front separator') fun f =>
      (Joiner.begin_steps (steady_puller f) item).appends
    refine Spills.look (hbegun.congr fun f w hroom => ?_)
    by_cases hindex : 0 < place.index
    · simp only [hindex, decide_true, if_true, JoinPlace.front]
      rfl
    · simp only [hindex, decide_false, Bool.false_eq_true, if_false, JoinPlace.front]
      rw [bind_of_ok (write_nil hroom _)]
      rfl

theorem Joiner.stream_spills (hsource : source.Unpulled) (hs : Joiner.Placed feed source separator seen i s) :
    Spills feed n seen s (fun f => Joiner.stream (puller f)) fun k p =>
      JoinPlace.LeadsAt feed source separator (Value.Leads feed k) i p := by
  obtain ⟨place, text, q, hplace, hs⟩ := hs
  refine Spills.known hplace (Spills.bind (fun k => Joiner.itemGoesOn_tells (pulls feed k) hsource hplace hs)
    (fun k => (Joiner.itemGoesOn_steps (steady_puller k)).quiet_run) ?_)
  rintro seen₁ _ goes s₁ _ - hgoes ⟨rfl, rfl, hs₁, -⟩
  cases goes with
  | true => exact Joiner.streamItem_spills h hsource hplace hgoes hs₁
  | false => exact Joiner.streamNext_spills h hsource hs₁

end Joiner

section Arguments

variable {b b' : Bound} {places : Nat → Nat}

theorem Halts.streamArg (hargs : b.Unpulled) (hb : b.At feed seen places b') (k : Nat) :
    Spills feed n seen b' (fun f => Bound.on k (puller f).stream) fun j p =>
      ∃ arg, b.args[k]? = some arg ∧ arg.Leads feed j (places k) p := by
  cases hk : b.args[k]? with
  | none =>
    refine (Spills.failed (.runtime (.missingArgument b'.name (k + 1))) fun f w => ?_).iff fun j p => by simp
    simp only [Bound.on, Bound.arg, bind_run, look_run, hb.getElem?_eq_none hk]
    rfl
  | some arg =>
    obtain ⟨arg', hk', hat⟩ := hb.exists_getElem? hk
    have hstream : Spills feed n seen b'
        (fun f => within arg' (fun value => { b' with args := b'.args.set k value }) (puller f).stream) _ :=
      (h.stream (hargs.getElem? hk) hat).within
    refine (hstream.congr fun f w _ => ?_).iff fun j p => by simp
    simp only [Bound.on, Bound.arg, bind_run, look_run, hk', pure_run]

theorem Concat.stream_spills (hargs : b.Unpulled) {order : List Nat} {s : Bound × Concat}
    (hs : Concat.Placed feed b order seen i s) :
    Spills feed n seen s (fun f => Concat.stream (puller f)) fun k p =>
      ConcatPlace.LeadsAt feed b order (Value.Leads feed k) i p := by
  have hstream : Spills feed n seen s
      (fun f => do
        (do Concat.skipEnded (puller f) (← look).2.rest)
        match (← look).2.rest with
        | [] => return ()
        | k :: _ => onFirst (Bound.on k (puller f).stream))
      fun k p => ConcatPlace.LeadsAt feed b order (Value.Leads feed k) i p := by
    refine Spills.bind (fun k => Concat.arrive_tracks (pulls feed k) hargs hs)
      (fun k => (Steps.bind .look fun _ => Concat.skipEnded_steps (steady_puller k) _).quiet_run) ?_
    rintro seen₁ ⟨_ | ⟨k, rest⟩, places⟩ _ ⟨b', _⟩ _ - - ⟨rfl, harrived⟩
    all_goals
      obtain rfl := harrived.state_eq
      refine Spills.look ?_
    · exact .late (.pure ())
    · exact (h.streamArg hargs harrived.args k).onFirst
  exact hstream.congr fun _ _ _ => rfl

end Arguments

end

end PullScript
