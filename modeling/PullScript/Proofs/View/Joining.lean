import PullScript.Proofs.View.Texts

namespace PullScript

open Act

variable {σ π : Type} {feed : Feed} {n : Nat} {seen : Reach} {b b' : Bound} {places : Nat → Nat}

namespace TextView

variable {t : TextView} {P : Reach → Nat → σ → Prop}

theorem Streamed.ofChunk {i : Nat} {s : σ} {stream : Nat → Act σ Unit}
    (h : Tracks feed n seen s stream (t.next i) fun seen' chunk _ s' bytes =>
      bytes = chunk.getD [] ∧ P seen' (if chunk.isSome then i + 1 else i) s') :
    Tracks feed n seen s stream (t.next i) (t.Streamed feed P i) := by
  refine h.imp ?_
  rintro seen' (_ | chunk) _ s' _ - hchunk ⟨rfl, hs'⟩
  · exact ⟨rfl, hs'⟩
  · exact ⟨i + 1, Nat.lt_succ_self i, .single hchunk, hs'⟩

theorem encoded_next (l : ListView) (e : Encoding) (i : Nat) :
    (encoded l e).next i = l.next i >>= fun
      | none => pure none
      | some item => do return some (e.bytes (← View.ask item .number)) := by
  have hnext := l.ended_bind_next i (pure none) fun
    | none => View.pastEnd
    | some item => do return some (e.bytes (← View.ask item .number))
  refine Eq.trans ?_ (hnext.trans (congrArg _ (funext fun item => by cases item <;> rfl)))
  refine bind_congr fun ended => ?_
  cases ended with
  | true => rfl
  | false =>
    refine (bind_assoc ..).trans (bind_congr fun item => ?_)
    cases item with
    | none => rfl
    | some item => exact bind_assoc ..

end TextView

theorem answerEncoding_answers (h : Pulls feed n) (hargs : b.Unpulled) (e : Encoding) :
    (TextView.encoded (.arg b 0) e).Answers feed n
      (fun seen i b' => b.Works feed (.encode e) seen i b' (.encode e))
      (fun seen b' => (b'.suspend (.encode e)).Over feed seen) fun k => answerEncoding (puller k) e := by
  refine TextView.Streams.answers ⟨?_, ?_⟩ fun _ => rfl
  · rintro seen _ b' ⟨places, hb, -, rfl⟩
    refine (h.listEndedOverArg hargs hb 0).imp ?_
    rintro seen' e b'' - - ⟨hb', hover⟩
    exact ⟨⟨places, hb', rfl, rfl⟩, fun he => (hover he).suspend rfl⟩
  · rintro seen _ b' ⟨places, hb, -, rfl⟩
    refine TextView.Streamed.ofChunk ?_
    rw [TextView.encoded_next]
    refine (h.nextArg hargs hb 0).bind fun seen₁ item b₁ _ hitem hb₁ => ?_
    cases item with
    | none => exact .pure ⟨rfl, _, hb₁, rfl, Function.update_self ..⟩
    | some item =>
      have hunpulled := ListView.unpulled_of_next_arg hargs hitem
      refine (Tracks.aside (h.number hunpulled hunpulled.at_start)).bind ?_
      rintro seen₂ x ⟨_, item'⟩ _ _ hfurther - ⟨rfl, rfl, rfl, -⟩
      exact .write ⟨rfl, _, hb₁.mono hfurther, rfl, Function.update_self ..⟩

theorem TextView.stepwise_next (start : π) (next : π → View (Option (Bytes × π))) (ended : π → View Bool) (i : Nat) :
    (stepwise start next ended).next i = (do
      let place ← placeAfter start next i
      if ← ended place then return none
      match ← next place with
      | none => View.pastEnd
      | some (chunk, _) => return some chunk) := by
  refine View.ext fun viewer => ?_
  simp only [TextView.next, stepwise, View.run_bind]
  rcases hplace : (placeAfter start next i).run viewer with _ | _ | place
  · rfl
  · rfl
  · simp only [Option.bind_some, View.andThen]
    rcases (ended place).run viewer with _ | _ | _ | _
    · rfl
    · rfl
    · simp only [Option.bind_some, View.andThen, Bool.false_eq_true, if_false, View.run_bind, hplace]
      rcases (next place).run viewer with _ | _ | _ | _ <;> rfl
    · rfl

theorem TextView.stepwise_next_gives {start : π} {next : π → View (Option (Bytes × π))} {ended : π → View Bool}
    {i : Nat} {place place' : π} {chunk : Bytes} (hplace : (placeAfter start next i).Gives feed place)
    (hended : (ended place).Gives feed false) (hnext : (next place).Gives feed (some (chunk, place'))) :
    ((stepwise start next ended).next i).Gives feed (some chunk) ∧
      (placeAfter start next (i + 1)).Gives feed place' := by
  constructor
  · refine next_gives_some_iff.2 ⟨hplace.bind hended, hplace.bind (hnext.bind ?_)⟩
    exact .pure _
  · exact hplace.bind (hnext.bind (.pure _))

namespace ConcatPlace

variable {k : Nat} {rest rest' : List Nat} {place place' place'' : ConcatPlace}

theorem Skips.trans (h : Skips feed b place place') (h' : Skips feed b place' place'') :
    Skips feed b place place'' := by
  induction h with
  | refl => exact h'
  | step hended _ ih => exact .step hended (ih h')

theorem Skips.tracks {α β : Type} (h : Skips feed b place place') {s : σ} {act : Nat → Act σ α}
    {m : ConcatPlace → View β} {N : Reach → β → α → σ → Bytes → Prop}
    (hact : Tracks feed n seen s act (settled b place'.rest place'.places >>= m) N) :
    Tracks feed n seen s act (settled b place.rest place.places >>= m) N := by
  induction h with
  | refl => exact hact
  | step hended _ ih =>
    rw [settled, bind_assoc]
    exact .known hended (ih hact)

theorem run_ended_of_settled {viewer : Viewer} (h : (settled b rest' places).run viewer = some (.ok place))
    (hrest : place.rest = k :: rest) : ((TextView.arg b k).ended (place.places k)).run viewer = some (.ok false) := by
  induction rest' with
  | nil =>
    cases h
    cases hrest
  | cons j rest' ih =>
    obtain ⟨e, he, h⟩ := View.run_bind_eq_ok_iff.1 h
    cases e with
    | true => exact ih h
    | false =>
      cases h
      cases hrest
      exact he

theorem ended_of_settled (h : (settled b rest' places).Gives feed place) (hrest : place.rest = k :: rest) :
    ((TextView.arg b k).ended (place.places k)).Gives feed false :=
  h.elim fun n hn => ⟨n, run_ended_of_settled hn hrest⟩

end ConcatPlace

namespace TextView

variable {order : List Nat}

theorem concatenated_next (b : Bound) (order : List Nat) (i : Nat) :
    (concatenated b order).next i = (do
      let place ← placeAfter ⟨order, fun _ => 0⟩ (ConcatPlace.next b) i
      let place ← ConcatPlace.settled b place.rest place.places
      match place.rest with
      | [] => return none
      | k :: _ => (TextView.arg b k).next (place.places k)) := by
  refine (stepwise_next ..).trans (bind_congr fun place => View.ext fun viewer => ?_)
  simp only [ConcatPlace.next, View.run_bind]
  rcases hsettled : (ConcatPlace.settled b place.rest place.places).run viewer with _ | _ | ⟨rest, places⟩
  · rfl
  · rfl
  · cases rest with
    | nil => rfl
    | cons k rest =>
      have hended := ConcatPlace.run_ended_of_settled hsettled rfl
      simp only [Option.bind_some, View.andThen, View.run_pure, List.isEmpty_cons, Bool.false_eq_true, if_false,
        View.run_bind, hsettled, next, hended]
      rcases ((TextView.arg b k).chunk (places k)).run viewer with _ | _ | _ <;> rfl

theorem concatenated_runs {place : ConcatPlace} {i k p j : Nat} {rest : List Nat} {bytes : Bytes}
    (hplace : (placeAfter ⟨order, fun _ => 0⟩ (ConcatPlace.next b) i).Gives feed place)
    (hsettled : (ConcatPlace.settled b place.rest place.places).Gives feed ⟨k :: rest, places⟩)
    (hruns : (TextView.arg b k).Runs feed p j bytes) (hp : places k = p) (hpj : p < j) :
    (concatenated b order).Runs feed i (i + (j - p)) bytes ∧
      (placeAfter ⟨order, fun _ => 0⟩ (ConcatPlace.next b) (i + (j - p))).Gives feed
        ⟨k :: rest, Function.update places k j⟩ := by
  induction hruns generalizing i place places with
  | refl => omega
  | @step p j chunk bytes hnext hrest ih =>
    subst hp
    have hchunk := (next_gives_some_iff.1 hnext).2
    have hended : (do
        let place ← ConcatPlace.settled b place.rest place.places
        return place.rest.isEmpty).Gives feed false := hsettled.bind (.pure _)
    have hplaced : (ConcatPlace.next b place).Gives feed
        (some (chunk, ⟨k :: rest, Function.update places k (places k + 1)⟩)) :=
      hsettled.bind (hchunk.bind (.pure _))
    obtain ⟨hnext', hplace'⟩ : ((concatenated b order).next i).Gives feed (some chunk) ∧ _ :=
      stepwise_next_gives hplace hended hplaced
    have hupdate : Function.update places k (places k + 1) k = places k + 1 := Function.update_self ..
    cases hrest with
    | refl =>
      rw [Nat.add_sub_cancel_left]
      exact ⟨by simpa using Runs.single hnext', hplace'⟩
    | step hmore hrest' =>
      have hthere : (ConcatPlace.settled b (k :: rest) (Function.update places k (places k + 1))).Gives feed
          ⟨k :: rest, Function.update places k (places k + 1)⟩ := by
        have hmore' := (next_gives_some_iff.1 hmore).1
        rw [← hupdate] at hmore'
        exact hmore'.bind (.pure _)
      have hlt := hrest'.le
      obtain ⟨hall, hplace''⟩ := ih hplace' hthere hupdate (by omega)
      rw [Function.update_idem] at hplace''
      rw [show i + (j - places k) = i + 1 + (j - (places k + 1)) by omega]
      exact ⟨.step hnext' hall, hplace''⟩

end TextView

theorem Concat.skipEnded_tracks (h : Pulls feed n) (hargs : b.Unpulled) {rest : List Nat}
    {state : Concat} (hb : b.At feed seen places b') (hrest : state.rest = rest) :
    Tracks feed n seen (b', state) (fun f => Concat.skipEnded (puller f) rest)
      (ConcatPlace.settled b rest places) fun seen' place _ s bytes => bytes = [] ∧
        ConcatPlace.Skips feed b ⟨rest, places⟩ place ∧ s.2 = { state with rest := place.rest } ∧
        b.At feed seen' place.places s.1 := by
  induction rest generalizing seen b' state with
  | nil => exact .pure ⟨rfl, .refl _, by rw [← hrest], hb⟩
  | cons k rest ih =>
    refine (Tells.onFirst (h.textEndedArg hargs hb k)).bind ?_
    rintro seen' e _ _ he ⟨b'', rfl, hb''⟩
    cases e with
    | false => exact .pure ⟨rfl, .refl _, by rw [← hrest], hb''⟩
    | true =>
      refine Tracks.afterChange ((ih hb'' rfl).imp ?_)
      rintro seen'' place _ s bytes - - ⟨rfl, hskips, hs, hargs'⟩
      exact ⟨rfl, .step he hskips, hs, hargs'⟩

def Concat.Placed (feed : Feed) (b : Bound) (order : List Nat) (seen : Reach) (i : Nat)
    (s : Bound × Concat) : Prop :=
  b.Works feed (.concat ⟨order, order⟩) seen i s.1 (.concat s.2)

/-- Texts that have been streamed up to a place, those in front that have ended being stepped over. -/
structure Concat.Arrived (feed : Feed) (b : Bound) (order : List Nat) (i : Nat) (seen : Reach)
    (place : ConcatPlace) (s : Bound × Concat) : Prop where
  state_eq : s.2 = ⟨order, place.rest⟩
  args : b.At feed seen place.places s.1
  settled : ∃ before, (TextView.placeAfter ⟨order, fun _ => 0⟩ (ConcatPlace.next b) i).Gives feed before ∧
    (ConcatPlace.settled b before.rest before.places).Gives feed place ∧ ConcatPlace.Skips feed b before place

theorem Concat.Arrived.placed {order : List Nat} {i : Nat} {place : ConcatPlace} {s : Bound × Concat}
    (h : Concat.Arrived feed b order i seen place s) : Concat.Placed feed b order seen i s := by
  obtain ⟨hstate, hargs, before, hbefore, -, hskips⟩ := h
  exact ⟨place.places, hargs, by rw [hstate], before, hbefore, by rwa [hstate]⟩

theorem Concat.arrive_tracks (h : Pulls feed n) (hargs : b.Unpulled) {order : List Nat} {i : Nat}
    {s : Bound × Concat} (hs : Concat.Placed feed b order seen i s) :
    Tracks feed n seen s (fun f => do Concat.skipEnded (puller f) (← look).2.rest)
      (do
        let place ← TextView.placeAfter ⟨order, fun _ => 0⟩ (ConcatPlace.next b) i
        ConcatPlace.settled b place.rest place.places)
      fun seen' place _ s' bytes => bytes = [] ∧ Concat.Arrived feed b order i seen' place s' := by
  obtain ⟨b', order, rest⟩ := s
  obtain ⟨places, hb, rfl, before, hbefore, hskips⟩ := hs
  have hskip := Concat.skipEnded_tracks h hargs hb (rfl : (⟨order, rest⟩ : Concat).rest = rest)
  rw [← bind_pure (ConcatPlace.settled ..)] at hskip
  refine Tracks.look (.known hbefore ?_)
  rw [← bind_pure (ConcatPlace.settled ..)]
  refine (hskips.tracks hskip).imp ?_
  rintro seen' place _ s' bytes - hplace ⟨rfl, hskips', hs', hargs'⟩
  rw [bind_pure] at hplace
  exact ⟨rfl, hs', hargs', before, hbefore, hplace, hskips.trans hskips'⟩

theorem Concat.answers (h : Pulls feed n) (hargs : b.Unpulled) (order : List Nat) :
    (TextView.concatenated b order).Answers feed n (Concat.Placed feed b order)
      (fun seen s => (s.1.suspend (.concat s.2)).Over feed seen) fun k => Concat.answer (puller k) := by
  refine TextView.Streams.answers ⟨?_, ?_⟩ fun _ => rfl
  · intro seen i s hs
    have hended : Tells feed n seen s
        (fun f => do
          (do Concat.skipEnded (puller f) (← look).2.rest)
          return (← look).2.rest.isEmpty)
        ((TextView.concatenated b order).ended i) fun seen' e s' => Concat.Placed feed b order seen' i s' ∧
          (e = true → (s'.1.suspend (.concat s'.2)).Over feed seen') := by
      refine Eq.subst (motive := fun m => Tells feed n seen s _ m _) (bind_assoc ..)
        ((Concat.arrive_tracks h hargs hs).bind ?_)
      rintro seen' place _ s' _ - - ⟨rfl, harrived⟩
      refine Tracks.look ?_
      rw [harrived.state_eq]
      refine Tells.pure ⟨harrived.placed, fun he => .done _ _ _ ?_⟩
      rw [harrived.state_eq]
      exact List.isEmpty_iff.1 he
    exact hended.congr fun _ _ => rfl
  · intro seen i s hs
    have hstream : Tracks feed n seen s
        (fun f => do
          (do Concat.skipEnded (puller f) (← look).2.rest)
          match (← look).2.rest with
          | [] => return ()
          | k :: _ => onFirst (Bound.on k (puller f).stream))
        ((TextView.concatenated b order).next i)
        ((TextView.concatenated b order).Streamed feed (Concat.Placed feed b order) i) := by
      rw [TextView.concatenated_next]
      refine Eq.subst (motive := fun m => Tracks feed n seen s _ m _) (bind_assoc ..)
        ((Concat.arrive_tracks h hargs hs).bind ?_)
      rintro seen' ⟨_ | ⟨k, rest⟩, places⟩ _ ⟨b', _⟩ _ - - ⟨rfl, harrived⟩
      all_goals
        obtain rfl := harrived.state_eq
        refine Tracks.look ?_
      · exact Tracks.pure ⟨rfl, harrived.placed⟩
      · obtain ⟨-, hb', before, hbefore, hsettled, hskips⟩ := harrived
        refine (Tracks.onFirst (h.streamArg hargs hb' k)).imp ?_
        rintro seen'' chunk _ _ bytes - hchunk ⟨b'', rfl, hstreamed⟩
        obtain ⟨c, j, rfl, hpj, hruns, hb''⟩ :=
          hstreamed.of_more hchunk (ConcatPlace.ended_of_settled hsettled rfl)
        obtain ⟨hall, hplace⟩ := TextView.concatenated_runs hbefore hsettled hruns rfl hpj
        exact ⟨_, by omega, hall, _, hb'', rfl, _, hplace, .refl _⟩
    exact hstream.congr fun _ _ => rfl

/-- What is left to stream when some pieces are left: a separator stands before each of them, apart from the first
one of all. -/
def Joiner.left (separator : Bytes) (started : Bool) (pieces : List Bytes) : Bytes :=
  if started then pieces.flatMap (separator ++ ·) else separator.intercalate pieces

theorem Joiner.left_cons (separator : Bytes) (started : Bool) (piece : Bytes) (pieces : List Bytes) :
    left separator started (piece :: pieces) =
      ((if started then separator else []) ++ piece) ++ left separator true pieces := by
  cases started with
  | true => simp [left]
  | false =>
    simp only [left, Bool.false_eq_true, if_false, if_true, List.nil_append]
    induction pieces generalizing piece with
    | nil => simp
    | cons next pieces ih =>
      rw [List.intercalate_cons_cons, ih next, List.flatMap_cons, List.append_assoc, List.append_assoc]

namespace JoinPlace

variable {l : ListView} {separator : Bytes} {place : JoinPlace}

def front (place : JoinPlace) (separator : Bytes) : Bytes :=
  if 0 < place.index then separator else []

def itemNext (place : JoinPlace) : View (Option Bytes) :=
  match place.item with
  | none => return none
  | some (text, p) => (TextView.of text).next p

theorem exists_of_goesOn {viewer : Viewer} (h : place.goesOn.run viewer = some (.ok true)) :
    ∃ text p, place.item = some (text, p) ∧ ((TextView.of text).ended p).run viewer = some (.ok false) := by
  obtain ⟨item, index⟩ := place
  cases item with
  | none => cases h
  | some item =>
    obtain ⟨e, he, h⟩ := View.run_bind_eq_ok_iff.1 h
    cases e with
    | true => cases h
    | false => exact ⟨item.1, item.2, rfl, he⟩

theorem item_unpulled {source : Value} (hsource : source.Unpulled) {i : Nat}
    (h : (TextView.placeAfter ⟨none, 0⟩ (JoinPlace.next (.of source) separator) i).Gives feed place)
    {text : Value} {p : Nat} (hitem : place.item = some (text, p)) : text.Unpulled := by
  induction i generalizing place text p with
  | zero =>
    obtain rfl := View.gives_pure_iff.1 h
    cases hitem
  | succ i ih =>
    obtain ⟨before, hbefore, h⟩ := View.gives_bind_iff.1 h
    obtain ⟨reply, hreply, h⟩ := View.gives_bind_iff.1 h
    cases reply with
    | none => exact absurd h View.not_gives_fail
    | some reply =>
      obtain rfl := View.gives_pure_iff.1 h
      obtain ⟨goes, hgoes, hreply⟩ := View.gives_bind_iff.1 hreply
      cases goes with
      | true =>
        obtain ⟨item, index⟩ := before
        cases item with
        | none => cases View.gives_pure_iff.1 hreply
        | some item =>
          obtain ⟨chunk, -, hreply⟩ := View.gives_bind_iff.1 hreply
          obtain rfl := Option.some.inj (View.gives_pure_iff.1 hreply)
          cases hitem
          exact ih hbefore rfl
      | false =>
        obtain ⟨item, hnext, hreply⟩ := View.gives_bind_iff.1 hreply
        cases item with
        | none => cases View.gives_pure_iff.1 hreply
        | some item =>
          obtain ⟨text', htext, hreply⟩ := View.gives_bind_iff.1 hreply
          have hunpulled := View.Gives.coerced_unpulled (ListView.unpulled_of_next_of hsource hnext) htext
          obtain ⟨chunk, -, hreply⟩ := View.gives_bind_iff.1 hreply
          cases chunk with
          | none =>
            obtain rfl := Option.some.inj (View.gives_pure_iff.1 hreply)
            cases hitem
            exact hunpulled
          | some chunk =>
            obtain rfl := Option.some.inj (View.gives_pure_iff.1 hreply)
            cases hitem
            exact hunpulled

end JoinPlace

namespace TextView

theorem joined_next (l : ListView) (separator : Bytes) (i : Nat) :
    (joined l separator).next i = (do
      let place ← placeAfter ⟨none, 0⟩ (JoinPlace.next l separator) i
      if ← place.goesOn then place.itemNext
      else
        match ← l.next place.index with
        | none => return none
        | some item =>
          let text ← View.coerced item (.str false)
          return some (place.front separator ++ (← (TextView.of text).next 0).getD [])) := by
  refine (stepwise_next ..).trans (bind_congr fun place => View.ext fun viewer => ?_)
  simp only [JoinPlace.ended, JoinPlace.next, View.run_bind]
  rcases hgoes : place.goesOn.run viewer with _ | _ | _ | _
  · rfl
  · rfl
  · simp only [Option.bind_some, View.andThen, Bool.false_eq_true, if_false, ListView.next, View.run_bind]
    rcases hended : (l.ended place.index).run viewer with _ | _ | _ | _
    · rfl
    · rfl
    · simp only [Option.bind_some, View.andThen, Bool.false_eq_true, if_false, View.run_bind, hgoes, hended]
      rcases (l.item place.index).run viewer with _ | _ | item
      · rfl
      · rfl
      · simp only [Option.bind_some, View.andThen]
        rcases (l.step place.index).run viewer with _ | _ | u
        · rfl
        · rfl
        · simp only [Option.bind_some, View.andThen, View.run_pure, View.run_bind]
          rcases (View.coerced item (.str false)).run viewer with _ | _ | text
          · rfl
          · rfl
          · simp only [Option.bind_some, View.andThen]
            rcases ((TextView.of text).next 0).run viewer with _ | _ | _ | _ <;> simp [JoinPlace.front]
    · rfl
  · obtain ⟨text, p, hitem, hended⟩ := JoinPlace.exists_of_goesOn hgoes
    simp only [Option.bind_some, View.andThen, if_true, View.run_pure, Bool.false_eq_true, if_false, View.run_bind,
      hgoes, JoinPlace.itemNext, hitem, next, hended]
    rcases ((TextView.of text).chunk p).run viewer with _ | _ | _ <;> rfl

variable {l : ListView} {separator : Bytes}

theorem joined_runs {text : Value} {i p j index : Nat} {bytes : Bytes}
    (hplace : (placeAfter ⟨none, 0⟩ (JoinPlace.next l separator) i).Gives feed ⟨some (text, p), index⟩)
    (hruns : (TextView.of text).Runs feed p j bytes) :
    (joined l separator).Runs feed i (i + (j - p)) bytes ∧
      (placeAfter ⟨none, 0⟩ (JoinPlace.next l separator) (i + (j - p))).Gives feed ⟨some (text, j), index⟩ := by
  induction hruns generalizing i with
  | refl p =>
    rw [Nat.sub_self]
    exact ⟨.refl i, hplace⟩
  | @step p j chunk bytes hnext hrest ih =>
    obtain ⟨hended, hchunk⟩ := next_gives_some_iff.1 hnext
    have hgoes : (JoinPlace.goesOn ⟨some (text, p), index⟩).Gives feed true :=
      hended.bind (.pure _)
    have hnotEnded : (JoinPlace.ended l ⟨some (text, p), index⟩).Gives feed false :=
      hgoes.bind (.pure _)
    have hplaced : (JoinPlace.next l separator ⟨some (text, p), index⟩).Gives feed
        (some (chunk, ⟨some (text, p + 1), index⟩)) :=
      hgoes.bind (hchunk.bind (.pure _))
    obtain ⟨hnext', hplace'⟩ : ((joined l separator).next i).Gives feed (some chunk) ∧ _ :=
      stepwise_next_gives hplace hnotEnded hplaced
    obtain ⟨hall, hplace''⟩ := ih hplace'
    have hle := hrest.le
    rw [show i + (j - p) = i + 1 + (j - (p + 1)) by omega]
    exact ⟨.step hnext' hall, hplace''⟩

end TextView

/-- A joiner and its list at a place, the item that was begun being `text` at the place `p`. -/
structure Joiner.Stands (feed : Feed) (source : Value) (separator : Bytes) (place : JoinPlace) (text : Value)
    (p : Nat) (seen : Reach) (s : Joiner Value × Value) : Prop where
  source : source.At feed seen place.index s.2
  item : ∀ item, s.1.item = some item → text.At feed seen p item
  joiner : s.1.At feed separator place text p

def Joiner.Placed (feed : Feed) (source : Value) (separator : Bytes) (seen : Reach) (i : Nat)
    (s : Joiner Value × Value) : Prop :=
  ∃ place text p, (TextView.placeAfter ⟨none, 0⟩ (JoinPlace.next (.of source) separator) i).Gives feed place ∧
    Joiner.Stands feed source separator place text p seen s

section Joiner

variable {source text : Value} {separator : Bytes} {place : JoinPlace} {p i : Nat} {s : Joiner Value × Value}

theorem Joiner.itemGoesOn_tells (h : Pulls feed n) (hsource : source.Unpulled)
    (hplace : (TextView.placeAfter ⟨none, 0⟩ (JoinPlace.next (.of source) separator) i).Gives feed place)
    (hs : Joiner.Stands feed source separator place text p seen s) :
    Tells feed n seen s (fun f => Joiner.itemGoesOn (puller f)) place.goesOn fun seen' goes s' =>
      Joiner.Stands feed source separator place text p seen' s' ∧
        (goes = false → ∀ item, s'.1.item = some item → item.Over feed seen') := by
  obtain ⟨⟨separator', item, started⟩, source'⟩ := s
  refine Tells.look ?_
  cases item with
  | none => exact Tracks.given (hs.joiner.idle rfl) (Tells.pure ⟨hs, fun _ _ hnone => by cases hnone⟩)
  | some item =>
    obtain ⟨_, index⟩ := place
    obtain rfl := hs.joiner.busy rfl
    have htext := h.text (JoinPlace.item_unpulled hsource hplace rfl)
    refine (Tells.within (htext.endedOver (hs.item item rfl))).bind ?_
    rintro seen' e _ hfurther - ⟨item', rfl, hitem', hover⟩
    refine Tells.pure ⟨⟨hs.source.mono hfurther, ?_, hs.joiner.separator_eq, hs.joiner.started_eq, hs.joiner.busy, nofun⟩, ?_⟩
    · rintro _ ⟨⟩
      exact hitem'
    · rintro he _ ⟨⟩
      exact hover (by simpa using he)

theorem Joiner.streamItem_tracks (h : Pulls feed n) (hsource : source.Unpulled)
    (hplace : (TextView.placeAfter ⟨none, 0⟩ (JoinPlace.next (.of source) separator) i).Gives feed place)
    (hgoes : place.goesOn.Gives feed true) (hs : Joiner.Stands feed source separator place text p seen s) :
    Tracks feed n seen s (fun f => Joiner.streamItem (puller f)) place.itemNext
      ((TextView.joined (.of source) separator).Streamed feed (Joiner.Placed feed source separator) i) := by
  obtain ⟨⟨separator', item, started⟩, source'⟩ := s
  cases item with
  | none => cases hgoes.unique (hs.joiner.idle rfl)
  | some item =>
    obtain ⟨_, index⟩ := place
    obtain rfl := hs.joiner.busy rfl
    have hended : ((TextView.of text).ended p).Gives feed false := by simpa [JoinPlace.goesOn] using hgoes
    have htext := h.text (JoinPlace.item_unpulled hsource hplace rfl)
    refine Tracks.look ((Tracks.within (htext.stream (hs.item item rfl))).imp ?_)
    rintro seen' chunk _ _ bytes hfurther hchunk ⟨item', rfl, hstreamed⟩
    obtain ⟨c, j, rfl, hpj, hruns, hitem'⟩ := hstreamed.of_more hchunk hended
    obtain ⟨hall, hplace'⟩ := TextView.joined_runs hplace hruns
    refine ⟨i + (j - p), by omega, hall, ⟨some (text, j), index⟩, text, j, hplace', hs.source.mono hfurther, ?_,
      hs.joiner.separator_eq, hs.joiner.started_eq, fun _ => rfl, nofun⟩
    rintro _ ⟨⟩
    exact hitem'

theorem Joiner.begin_tracks (h : Pulls feed n) {item source' : Value} {started : Bool} {front : Bytes}
    (hplace : (TextView.placeAfter ⟨none, 0⟩ (JoinPlace.next (.of source) separator) i).Gives feed place)
    (hgoes : place.goesOn.Gives feed false) (hnext : ((ListView.of source).next place.index).Gives feed (some item))
    (hitem : item.Unpulled) (hsource' : source.At feed seen (place.index + 1) source')
    (hfront : place.front separator = front) :
    Tracks feed n seen ((⟨separator, none, started⟩ : Joiner Value), source')
      (fun f => do
        change fun (joiner, source) => ({ joiner with started := true }, source)
        let text ← coerce (puller f) item (.str false)
        let ((), text) ← aside text (puller f).stream
        change fun (joiner, source) => ({ joiner with item := some text }, source))
      (do
        let text ← View.coerced item (.str false)
        return some (place.front separator ++ (← (TextView.of text).next 0).getD []))
      fun seen' chunk u s' bytes =>
        (TextView.joined (.of source) separator).Streamed feed (Joiner.Placed feed source separator) i seen' chunk u s'
          (front ++ bytes) := by
  refine Tracks.afterChange ((coerce_tells h hitem (.str false)).bind ?_)
  rintro seen₁ text _ hfurther htext rfl
  have hunpulled := View.Gives.coerced_unpulled hitem htext
  refine (Tracks.aside ((h.text hunpulled).stream hunpulled.at_start)).bind ?_
  rintro seen₂ chunk ⟨⟨⟩, text'⟩ _ bytes hfurther' hchunk ⟨rfl, hstreamed⟩
  refine Tracks.change ?_
  rw [List.append_nil]
  have hsource₂ := (hsource'.mono hfurther).mono hfurther'
  have hnotEnded : (JoinPlace.ended (.of source) place).Gives feed false := hgoes.bind (ListView.ended_of_next hnext)
  have hstands : ∀ j, text.At feed seen₂ j text' →
      Joiner.Stands feed source separator ⟨some (text, j), place.index + 1⟩ text j seen₂
        (⟨separator, some text', true⟩, source') := by
    refine fun j hj => ⟨hsource₂, ?_, rfl, by simp, fun _ => rfl, nofun⟩
    rintro _ ⟨⟩
    exact hj
  subst hfront
  cases chunk with
  | none =>
    obtain ⟨rfl, htext'⟩ := hstreamed
    have hplaced : (JoinPlace.next (.of source) separator place).Gives feed
        (some (place.front separator, ⟨some (text, 0), place.index + 1⟩)) :=
      hgoes.bind (hnext.bind (htext.bind (hchunk.bind (.pure _))))
    obtain ⟨hfirst, hplace'⟩ :
        ((TextView.joined (.of source) separator).next i).Gives feed (some (place.front separator)) ∧ _ :=
      TextView.stepwise_next_gives hplace hnotEnded hplaced
    exact ⟨i + 1, Nat.lt_succ_self i, by simpa using TextView.Runs.single hfirst, _, text, 0, hplace',
      hstands 0 htext'⟩
  | some c =>
    obtain ⟨j, hj, hruns, htext'⟩ := hstreamed
    have hplaced : (JoinPlace.next (.of source) separator place).Gives feed
        (some (place.front separator ++ c, ⟨some (text, 1), place.index + 1⟩)) :=
      hgoes.bind (hnext.bind (htext.bind (hchunk.bind (.pure _))))
    obtain ⟨hfirst, hplace'⟩ :
        ((TextView.joined (.of source) separator).next i).Gives feed (some (place.front separator ++ c)) ∧ _ :=
      TextView.stepwise_next_gives hplace hnotEnded hplaced
    obtain ⟨rest, rfl, hrest⟩ := hruns.split (.single hchunk) hj
    obtain ⟨hall, hplace''⟩ := TextView.joined_runs hplace' hrest
    rw [← List.append_assoc]
    exact ⟨_, by omega, .step hfirst hall, _, text, j, hplace'', hstands j htext'⟩

theorem Joiner.streamNext_tracks (h : Pulls feed n) (hsource : source.Unpulled)
    (hplace : (TextView.placeAfter ⟨none, 0⟩ (JoinPlace.next (.of source) separator) i).Gives feed place)
    (hgoes : place.goesOn.Gives feed false) (hs : Joiner.Stands feed source separator place text p seen s) :
    Tracks feed n seen s (fun f => Joiner.streamNext (puller f))
      (do
        match ← (ListView.of source).next place.index with
        | none => return none
        | some item =>
          let text ← View.coerced item (.str false)
          return some (place.front separator ++ (← (TextView.of text).next 0).getD []))
      ((TextView.joined (.of source) separator).Streamed feed (Joiner.Placed feed source separator) i) := by
  obtain ⟨⟨separator', item, started⟩, source'⟩ := s
  obtain rfl : separator' = separator := hs.joiner.separator_eq
  obtain rfl : started = decide (0 < place.index) := hs.joiner.started_eq
  refine Tracks.afterChange ((Tells.onSecond ((h.list hsource).next hs.source)).bind ?_)
  rintro seen₁ item _ _ hnext ⟨source₁, rfl, hsource₁⟩
  cases item with
  | none =>
    exact Tracks.pure ⟨rfl, place, text, p, hplace, hsource₁, nofun, rfl, rfl, nofun, fun _ => hgoes⟩
  | some item =>
    have hitem := ListView.unpulled_of_next_of hsource hnext
    refine Tracks.look ?_
    by_cases hindex : 0 < place.index
    · simp only [hindex, decide_true, if_true]
      exact Tracks.afterWrite (Joiner.begin_tracks h hplace hgoes hnext hitem hsource₁ (if_pos hindex))
    · simp only [hindex, decide_false, Bool.false_eq_true, if_false]
      exact Joiner.begin_tracks h hplace hgoes hnext hitem hsource₁ (if_neg hindex)

def Joiner.IsOver (feed : Feed) (seen : Reach) (s : Joiner Value × Value) : Prop :=
  s.2.Over feed seen ∧ ∀ item, s.1.item = some item → item.Over feed seen

theorem Joiner.answers (h : Pulls feed n) (hsource : source.Unpulled) (separator : Bytes) :
    (TextView.joined (.of source) separator).Answers feed n (Joiner.Placed feed source separator)
      (Joiner.IsOver feed) fun k => Joiner.answer (puller k) := by
  refine TextView.Streams.answers ⟨?_, ?_⟩ fun _ => rfl
  · rintro seen i s ⟨place, text, p, hplace, hs⟩
    refine Tracks.known hplace ((Joiner.itemGoesOn_tells h hsource hplace hs).bind ?_)
    rintro seen₁ goes ⟨joiner, source₁⟩ - - ⟨hs₁, hover⟩
    cases goes with
    | true => exact Tells.pure ⟨⟨place, text, p, hplace, hs₁⟩, nofun⟩
    | false =>
      refine (Tells.onSecond ((h.list hsource).endedOver hs₁.source)).imp ?_
      rintro seen₂ _ _ hfurther - ⟨source₂, rfl, hsource₂, hover₂⟩
      refine ⟨⟨place, text, p, hplace, hsource₂, fun item hitem => (hs₁.item item hitem).mono hfurther, hs₁.joiner⟩, ?_⟩
      exact fun he => ⟨hover₂ he, fun item hitem => (hover rfl item hitem).mono hfurther⟩
  · rintro seen i s ⟨place, text, p, hplace, hs⟩
    rw [TextView.joined_next]
    refine Tracks.known hplace ((Joiner.itemGoesOn_tells h hsource hplace hs).bind ?_)
    intro seen₁ goes s₁ _ hgoes ⟨hs₁, _⟩
    cases goes with
    | true => exact Joiner.streamItem_tracks h hsource hplace hgoes hs₁
    | false => exact Joiner.streamNext_tracks h hsource hplace hgoes hs₁

end Joiner

/-- The arguments of a builtin that joins, streamed up to a place. Nothing is done before the
separator is known. -/
def Joiner.JoinPlaced (feed : Feed) (b : Bound) (seen : Reach) (i : Nat) :
    Bound × Option (Joiner Value) → Prop
  | (b', none) => i = 0 ∧ ∃ places, (∀ k, places k = 0) ∧ b.At feed seen places b'
  | (b', some joiner) => ∃ places source separator place text p, b.At feed seen places b' ∧
    b.args[1]? = some source ∧ (View.argBytes b 0).Gives feed separator ∧
    (TextView.placeAfter ⟨none, 0⟩ (JoinPlace.next (.of source) separator) i).Gives feed place ∧
    places 1 = place.index ∧ (∀ item, joiner.item = some item → text.At feed seen p item) ∧
    joiner.At feed separator place text p

section Join

variable {α β : Type} {i : Nat} {act : Nat → Act (Joiner Value × Value) α} {m : Bytes → View β}
  {N : Reach → β → α → Nat → Joiner Value × Value → Bytes → Prop}

def Joiner.Worked (feed : Feed) (b : Bound) (N : Reach → β → α → Nat → Joiner Value × Value → Bytes → Prop)
    (seen : Reach) (x : β) (a : α) (s : Bound × Option (Joiner Value)) (bytes : Bytes) : Prop :=
  ∃ j joiner source, s.2 = some joiner ∧ s.1.args[1]? = some source ∧ Joiner.JoinPlaced feed b seen j s ∧
    N seen x a j (joiner, source) bytes

theorem Joiner.ofArgs_known {source : Value} {separator : Bytes} {place : JoinPlace} {text : Value} {p : Nat}
    {joiner : Joiner Value} (hargs : b.At feed seen places b') (hsource : b.args[1]? = some source)
    (hseparator : (View.argBytes b 0).Gives feed separator)
    (hplace : (TextView.placeAfter ⟨none, 0⟩ (JoinPlace.next (.of source) separator) i).Gives feed place)
    (hindex : places 1 = place.index) (hitem : ∀ item, joiner.item = some item → text.At feed seen p item)
    (hjoiner : joiner.At feed separator place text p)
    (hact : ∀ s, Joiner.Placed feed source separator seen i s →
      Tracks feed n seen s act (m separator) fun seen' x a s' bytes =>
        ∃ j, Joiner.Placed feed source separator seen' j s' ∧ N seen' x a j s' bytes) :
    Tracks feed n seen (b', some joiner)
      (fun f => do
        let source ← onFirst (Bound.arg 1)
        let (b, joiner) ← look
        within (joiner.getD { separator := [] }, source)
          (fun (joiner, source) => ({ b with args := b.args.set 1 source }, some joiner)) (act f))
      (m separator) (Joiner.Worked feed b N) := by
  obtain ⟨source', hsource', hat⟩ := hargs.exists_getElem? hsource
  rw [hindex] at hat
  have hwithin : Tracks feed n seen (b', some joiner)
      (fun f => within (joiner, source')
        (fun (joiner, source) => ({ b' with args := b'.args.set 1 source }, some joiner)) (act f))
      (m separator) _ := Tracks.within (hact (joiner, source') ⟨place, text, p, hplace, hat, hitem, hjoiner⟩)
  refine (hwithin.congr fun f w => ?_).imp ?_
  · rw [bind_run, Bound.onFirst_arg_of_some hsource']
    rfl
  · rintro seen' x a _ bytes hfurther - ⟨⟨joiner', source''⟩, rfl, j, ⟨place', text', p', hplace', hs'⟩, hN⟩
    have hlt := (List.getElem?_eq_some_iff.1 hsource').1
    exact ⟨j, joiner', source'', rfl, List.getElem?_set_self hlt, ⟨_, source, separator, place', text', p',
      hargs.set hfurther hsource hs'.source, hsource, hseparator, hplace', Function.update_self .., hs'.item,
      hs'.joiner⟩, hN⟩

theorem Joiner.ofArgs_tracks (h : Pulls feed n) (hargs : b.Unpulled)
    (hact : ∀ seen source separator s, b.args[1]? = some source → (View.argBytes b 0).Gives feed separator →
      Joiner.Placed feed source separator seen i s →
      Tracks feed n seen s act (m separator) fun seen' x a s' bytes =>
        ∃ j, Joiner.Placed feed source separator seen' j s' ∧ N seen' x a j s' bytes)
    (hmissing : i = 0 → b.args[1]? = none → ∀ separator,
      (m separator).Fails feed (.runtime (.missingArgument b.name 2)))
    {s : Bound × Option (Joiner Value)} (hs : Joiner.JoinPlaced feed b seen i s) :
    Tracks feed n seen s (fun f => Joiner.ofArgs (puller f) (act f)) (View.argBytes b 0 >>= m)
      (Joiner.Worked feed b N) := by
  obtain ⟨b', _ | joiner⟩ := s
  · obtain ⟨rfl, places, hplaces, hb⟩ := hs
    refine Tracks.look ((Tells.onFirst (h.bytesArg hargs hb (hplaces 0))).bind ?_)
    rintro seen' separator _ - hseparator ⟨b'', rfl, j, hb''⟩
    refine Tracks.afterChange ?_
    cases hsource : b.args[1]? with
    | none =>
      refine .ofFail (hmissing rfl hsource separator) fun w _ => ⟨((b'', some { separator }), w), fun f => ?_⟩
      rw [bind_run, Bound.onFirst_arg_of_none (hb''.getElem?_eq_none hsource), hb''.name_eq]
    | some source =>
      have hindex : Function.update places 0 j 1 = 0 := by
        rw [Function.update_of_ne (by decide)]
        exact hplaces 1
      exact Joiner.ofArgs_known hb'' hsource hseparator (.pure _) hindex
        (fun _ hitem => by cases hitem) (.start separator source) fun s hs => hact seen' source separator s hsource hseparator hs
  · obtain ⟨places, source, separator, place, text, p, hb, hsource, hseparator, hplace, hindex, hitem, hjoiner⟩ := hs
    refine Tracks.look (.known hseparator ?_)
    exact Joiner.ofArgs_known hb hsource hseparator hplace hindex hitem hjoiner
      fun s hs => hact seen source separator s hsource hseparator hs

theorem Joiner.answerJoin_answers (h : Pulls feed n) (hargs : b.Unpulled) :
    (TextView.after (View.argBytes b 0) (.joined (.arg b 1))).Answers feed n (Joiner.JoinPlaced feed b)
      (fun seen s => (s.1.suspend (.join s.2)).Over feed seen) fun k => Joiner.answerJoin (puller k) := by
  refine TextView.Streams.answers ⟨?_, ?_⟩ fun _ => rfl
  · intro seen i s hs
    refine (Joiner.ofArgs_tracks (N := fun seen x a j s bytes =>
      a = x ∧ bytes = [] ∧ j = i ∧ (x = true → Joiner.IsOver feed seen s)) h hargs ?_ ?_ hs).imp ?_
    · intro seen source separator s hsource _ hs
      rw [ListView.arg_eq hsource]
      refine Tracks.imp ((Joiner.answers h (hargs.getElem? hsource) separator).streams.endedOver hs) ?_
      rintro seen' x _ s' _ - - ⟨rfl, rfl, hs', hover⟩
      exact ⟨i, hs', rfl, rfl, rfl, hover⟩
    · rintro rfl hmissing separator
      exact (View.gives_pure_iff.2 rfl).bind ((View.gives_pure_iff.2 rfl).bind (View.fails_arg hmissing).bind)
    · rintro seen' x a ⟨b', _⟩ bytes - - ⟨j, joiner, source, rfl, hsource, hs', rfl, rfl, rfl, hover⟩
      exact ⟨rfl, rfl, hs', fun he => .joining b'.name b'.ty hsource (hover he).1 (hover he).2⟩
  · intro seen i s hs
    rw [TextView.after_next]
    refine (Joiner.ofArgs_tracks (N := fun _ chunk _ j _ bytes =>
      (TextView.after (View.argBytes b 0) (.joined (.arg b 1))).Passed feed i chunk j bytes)
      h hargs ?_ ?_ hs).imp ?_
    · intro seen source separator s hsource hseparator hs
      rw [ListView.arg_eq hsource]
      refine ((Joiner.answers h (hargs.getElem? hsource) separator).streams.stream hs).imp ?_
      rintro seen' chunk _ s' bytes - - hstreamed
      obtain ⟨j, hs', hpassed⟩ := TextView.streamed_iff.1 hstreamed
      exact ⟨j, hs', hpassed.after hseparator⟩
    · rintro rfl hmissing separator
      rw [TextView.joined_next]
      exact (View.gives_pure_iff.2 rfl).bind ((View.gives_pure_iff.2 rfl).bind (View.fails_arg hmissing).bind.bind.bind)
    · rintro _ _ _ _ _ - - ⟨j, _, _, _, _, hs', hpassed⟩
      exact TextView.streamed_iff.2 ⟨j, hs', hpassed⟩

end Join

end PullScript
