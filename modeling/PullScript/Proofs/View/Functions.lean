import PullScript.Proofs.View.Lists

namespace PullScript

open Act

variable {j : Nat}

variable {α β σ : Type} {feed : Feed} {n : Nat} {seen : Reach} {value value' x : Value} {b b' : Bound}
  {places : Nat → Nat} {k : Nat}

namespace Choice

theorem last_tells (h : Pulls feed n) (hvalue : value.Unpulled) (hat : value.At feed seen 0 value') :
    Tells feed n seen value'
      (fun f => loop (fun item => do
        match ← holding (held item) (puller f).next with
        | some item => return .inl (some item)
        | none => return .inr item) f none)
      (ListView.of value).last fun seen' _ v => ∃ k, value.At feed seen' k v := by
  have hlist := h.list hvalue
  refine Tracks.imp (Tracks.loop (I := fun seen c item v => item = c.2 ∧ value.At feed seen c.1 v)
    (N := fun seen item item' v => item' = item ∧ ∃ k, value.At feed seen k v) ?_ ⟨rfl, hat⟩) ?_
  · rintro seen ⟨k, item⟩ _ v ⟨rfl, hv⟩
    refine (hlist.next hv).holding.bind fun seen' next v' _ _ hv' => ?_
    cases next with
    | none => exact .pure ⟨rfl, rfl, k, hv'⟩
    | some next => exact .pure ⟨rfl, rfl, hv'⟩
  · rintro seen' item _ v _ - - ⟨rfl, rfl, hv⟩
    exact ⟨rfl, rfl, hv⟩

theorem current_tells (h : Pulls feed n) (hvalue : value.Unpulled) (hat : value.At feed seen k value') (error : Error) :
    Tells feed n seen value'
      (fun f => do
        if ← (puller f).listEnded then fail error
        (puller f).current)
      (do
        if ← (ListView.of value).ended k then .fail error
        (ListView.of value).item k) fun seen' _ v => value.At feed seen' k v := by
  have hlist := h.list hvalue
  refine (hlist.ended hat).bind fun seen' ended v _ _ hv => ?_
  cases ended with
  | true => exact Tracks.congr (.fail error) fun _ _ => rfl
  | false => exact hlist.current hv

theorem find_tells (h : Pulls feed n) (hargs : b.Unpulled) (hb : b.At feed seen places b')
    (hplaces : ∀ i, places i = 0) (choice : Choice) :
    Tells feed n seen b' (fun f => choice.find (puller f)) (choice.chosen b) fun seen' _ b'' =>
      ∃ places, b.At feed seen' places b'' := by
  cases choice with
  | head =>
    refine (hb.tellsSome (m := fun list => do
      if ← (ListView.of list).ended 0 then .fail (.runtime .headOfEmpty)
      (ListView.of list).item 0) fun a a' ha hat => ?_).imp fun _ _ _ _ _ ⟨i, hb'⟩ => ⟨_, hb'⟩
    rw [hplaces] at hat
    exact (current_tells h (hargs.getElem? ha) hat _).imp fun _ _ _ _ _ hv => ⟨0, hv⟩
  | last =>
    refine (hb.tellsSome (m := fun list => do
      .expectKind list .lst
      .getOr (.runtime .lastOfEmpty) (← (ListView.of list).last)) fun a a' ha hat => ?_).imp fun _ _ _ _ _ ⟨i, hb'⟩ => ⟨_, hb'⟩
    rw [hplaces] at hat
    refine (requireKind_tells hat .lst).bind ?_
    rintro seen₁ ⟨⟩ _ hfurther - rfl
    refine (last_tells h (hargs.getElem? ha) (hat.mono hfurther)).bind fun seen' item v _ _ hv => ?_
    cases item with
    | none => exact Tells.fail _
    | some item => exact Tells.pure hv
  | index =>
    refine (h.numberArg hargs hb (hplaces 1)).bind fun seen' m b'' _ _ hb' => ?_
    by_cases hneg : m < 0
    · simp only [hneg, if_true]
      exact Tracks.congr (.fail (.runtime (.indexNegative m))) fun _ _ => rfl
    · simp only [hneg, if_false]
      refine (hb'.tellsSome (m := fun list => do
        .expectKind list .lst
        let k ← (ListView.of list).skip (countOf m)
        if ← (ListView.of list).ended k then .fail (.runtime (.indexOutOfRange m))
        (ListView.of list).item k) fun a a' ha hat => ?_).imp fun _ _ _ _ _ ⟨i, hb'⟩ => ⟨_, hb'⟩
      rw [hplaces] at hat
      refine Tracks.assocView ((skipItems_tracks h (hargs.getElem? ha) hat (countOf m)).bind ?_)
      rintro seen'' k _ v _ - - ⟨rfl, hv⟩
      exact (current_tells h (hargs.getElem? ha) hv _).imp fun _ _ _ _ _ hv' => ⟨k, hv'⟩

/-- A pick whose item, once it is found, is at the place `k`. A function is found in copies of the
arguments, which stay as they are. -/
def Placed (feed : Feed) (b : Bound) (choice : Choice) (seen : Reach) (k : Nat)
    (s : Bound × Option Value) : Prop :=
  ∃ places, b.At feed seen places s.1 ∧ (b.ty.kind = .arrow → Value.copyAll s.1.args = Value.copyAll b.args) ∧
    match s.2 with
    | none => k = 0 ∧ ∀ i, places i = 0
    | some item' => ∃ item, (choice.view b).Gives feed item ∧ item.At feed seen k item'

variable {choice : Choice} {s : Bound × Option Value} {act : Nat → Act Value α} {m : Value → View β}
  {N : Reach → β → α → Nat → Value → Bytes → Prop}

def Worked (feed : Feed) (b : Bound) (choice : Choice)
    (N : Reach → β → α → Nat → Value → Bytes → Prop) (seen : Reach) (y : β) (a : α) (s : Bound × Option Value)
    (bytes : Bytes) : Prop :=
  ∃ k item, s.2 = some item ∧ Placed feed b choice seen k s ∧ N seen y a k item bytes

theorem within_tracks (hb : b.At feed seen places b')
    (hsame : b.ty.kind = .arrow → Value.copyAll b'.args = Value.copyAll b.args) {item item' : Value}
    (hitem : (choice.view b).Gives feed item)
    (hact : Tracks feed n seen item' act (m item) fun seen' y a v bytes => ∃ k, item.At feed seen' k v ∧
      N seen' y a k v bytes) :
    Tracks feed n seen (b', some item') (fun f => within item' (fun item => (b', some item)) (act f)) (m item)
      (Worked feed b choice N) := by
  refine (Tracks.within hact).imp ?_
  rintro seen' y a _ bytes hfurther - ⟨v, rfl, k, hv, hN⟩
  exact ⟨k, v, rfl, ⟨places, hb.mono hfurther, hsame, item, hitem, hv⟩, hN⟩

section

variable (h : Pulls feed n) (hargs : b.Unpulled)
include h hargs

section

variable (hkind : b.ty.kind ≠ .arrow)
include hkind

theorem onItem_of_none (hb : b.At feed seen places b') (hplaces : ∀ i, places i = 0)
    {N : Reach → β → α → Bound × Option Value → Bytes → Prop}
    (hrest : ∀ {seen' b'' places' item}, b.At feed seen' places' b'' → (choice.view b).Gives feed item →
      Tracks feed n seen' (b'', some item) (fun f => within item (fun item => (b'', some item)) (act f)) (m item) N) :
    Tracks feed n seen (b', none) (fun f => choice.onItem (puller f) (act f)) (choice.view b >>= m) N := by
  have hview : choice.view b = choice.chosen b >>= fun item => .coerced item (target b.ty) := by
    rw [Choice.view, if_neg hkind]
  rw [hview, bind_assoc]
  refine Tracks.look ((find_tells h hargs hb hplaces choice).onFirst.bind ?_)
  rintro seen' found _ - hfound ⟨b'', rfl, places', hb'⟩
  refine Tracks.look ?_
  rw [show b''.ty = b.ty from hb'.ty_eq]
  refine (coerce_tells h (hfound.chosen_unpulled hargs) (target b.ty)).bind ?_
  rintro seen'' item _ hfurther hcoerced rfl
  refine Tracks.afterChange (Tracks.look (hrest (hb'.mono hfurther) ?_))
  rw [hview]
  exact hfound.bind hcoerced

theorem onItem_tracks (hs : Placed feed b choice seen k s)
    (hact : ∀ {seen item item'}, (choice.view b).Gives feed item → item.At feed seen k item' →
      Tracks feed n seen item' act (m item) fun seen' y a v bytes => ∃ k, item.At feed seen' k v ∧
      N seen' y a k v bytes) :
    Tracks feed n seen s (fun f => choice.onItem (puller f) (act f)) (choice.view b >>= m)
      (Worked feed b choice N) := by
  obtain ⟨b', _ | item'⟩ := s
  · obtain ⟨places, hb, hsame, rfl, hplaces⟩ := hs
    refine onItem_of_none h hargs hkind hb hplaces fun hb' hitem => ?_
    exact within_tracks hb' (fun harrow => absurd harrow hkind) hitem
      (hact hitem (hitem.choice_unpulled hargs).at_start)
  · obtain ⟨places, hb, hsame, item, hitem, hat⟩ := hs
    exact Tracks.look (Tracks.look (Tracks.known hitem (within_tracks hb hsame hitem (hact hitem hat))))

/-- Work on the item that answers just what is seen and leads to the place `j`, where something is known of
the item. -/
theorem onItem_tellsItem (hs : Placed feed b choice seen k s) {m : Value → View α} {R : Reach → α → Value → Prop}
    (hact : ∀ {seen item item'}, item.Unpulled → item.At feed seen k item' → Tells feed n seen item' act (m item)
      fun seen' x v => item.At feed seen' j v ∧ R seen' x v) :
    Tells feed n seen s (fun f => choice.onItem (puller f) (act f)) (choice.view b >>= m)
      fun seen' x s' => Placed feed b choice seen' j s' ∧ ∃ item, s'.2 = some item ∧ R seen' x item := by
  refine (onItem_tracks (N := fun seen y a i v bytes => a = y ∧ bytes = [] ∧ i = j ∧ R seen y v) h hargs hkind hs
    fun hitem hat => Tracks.imp (hact (hitem.choice_unpulled hargs) hat) ?_).imp ?_
  · rintro seen' y _ v _ - - ⟨rfl, rfl, hv, hR⟩
    exact ⟨j, hv, rfl, rfl, rfl, hR⟩
  · rintro seen' y _ s' _ - - ⟨_, v, hv, hs', rfl, rfl, rfl, hR⟩
    exact ⟨rfl, rfl, hs', v, hv, hR⟩

theorem onItem_tells (hs : Placed feed b choice seen k s) {m : Value → View α}
    (hact : ∀ {seen item item'}, item.Unpulled → item.At feed seen k item' → Tells feed n seen item' act (m item)
      fun seen' _ v => item.At feed seen' j v) :
    Tells feed n seen s (fun f => choice.onItem (puller f) (act f)) (choice.view b >>= m)
      fun seen' _ s' => Placed feed b choice seen' j s' :=
  (onItem_tellsItem (R := fun _ _ _ => True) h hargs hkind hs fun hitem hat =>
    (hact hitem hat).imp fun _ _ _ _ _ hv => ⟨hv, trivial⟩).imp fun _ _ _ _ _ hs' => hs'.1

theorem ended_tells {act : Nat → Act Value Bool} {m : Value → View Bool} (hs : Placed feed b choice seen k s)
    (hact : ∀ {seen item item'}, item.Unpulled → item.At feed seen k item' → Tells feed n seen item' act (m item)
      fun seen' e v => item.At feed seen' k v ∧ (e = true → v.Over feed seen')) :
    Tells feed n seen s (fun f => choice.onItem (puller f) (act f)) (choice.view b >>= m)
      fun seen' e s' => Placed feed b choice seen' k s' ∧
        (e = true → (s'.1.suspend (.pick choice s'.2)).Over feed seen') := by
  refine (onItem_tellsItem (R := fun seen' e v => e = true → v.Over feed seen') h hargs hkind hs hact).imp ?_
  rintro seen' e ⟨b', _⟩ - - ⟨hs', item, rfl, hover⟩
  exact ⟨hs', fun he => .picked _ _ _ _ (hover he)⟩

theorem streams (choice : Choice) :
    (TextView.after (choice.view b) .of).Streams feed n (Placed feed b choice)
      (fun seen s => (s.1.suspend (.pick choice s.2)).Over feed seen)
      (fun f => choice.onItem (puller f) (puller f).textEnded)
      fun f => choice.onItem (puller f) (puller f).stream where
  endedOver hs := ended_tells h hargs hkind hs fun hitem hat => (h.text hitem).endedOver hat
  stream {seen i s} hs := by
    rw [TextView.after_next]
    refine (onItem_tracks (N := fun _ chunk _ j _ bytes =>
      (TextView.after (choice.view b) .of).Passed feed i chunk j bytes) h hargs hkind hs
      fun hitem hat => ((h.text (hitem.choice_unpulled hargs)).stream hat).imp ?_).imp ?_
    · rintro seen' chunk _ v bytes - - hstreamed
      obtain ⟨j, hv, hpassed⟩ := TextView.streamed_iff.1 hstreamed
      exact ⟨j, hv, hpassed.after hitem⟩
    · exact fun _ _ _ _ _ _ _ ⟨j, _, _, hs', hpassed⟩ => TextView.streamed_iff.2 ⟨j, hs', hpassed⟩

theorem drain_tracks (hs : Placed feed b choice seen 0 s) :
    Tracks feed n seen s (fun f => choice.onItem (puller f) (puller f).drain)
      (do .ask (← choice.view b) .whole) fun seen' all _ s' bytes =>
        bytes = all ∧ ∃ i, Placed feed b choice seen' i s' := by
  refine (onItem_tracks (m := fun item => .ask item .whole) (N := fun _ all _ _ _ bytes => bytes = all) h hargs hkind hs
    fun hitem hat => (h.drain (hitem.choice_unpulled hargs) hat).imp ?_).imp ?_
  · exact fun _ _ _ _ _ _ _ ⟨hbytes, i, hv⟩ => ⟨i, hv, hbytes⟩
  · exact fun _ _ _ _ _ _ _ ⟨i, _, _, hs', hbytes⟩ => ⟨hbytes, i, hs'⟩

theorem walks (choice : Choice) :
    (ListView.after (choice.view b) .of).Walks feed n (Placed feed b choice)
      (fun seen s => (s.1.suspend (.pick choice s.2)).Over feed seen)
      (fun f => choice.onItem (puller f) (puller f).listEnded) (fun f => choice.onItem (puller f) (puller f).current)
      fun f => choice.onItem (puller f) (puller f).advance where
  endedOver hs := ended_tells h hargs hkind hs fun hitem hat => (h.list hitem).endedOver hat
  current hs := onItem_tells h hargs hkind hs fun hitem hat => (h.list hitem).current hat
  advance hs := onItem_tells h hargs hkind hs fun hitem hat => (h.list hitem).advance hat

end

theorem chooseFrom_tells [Holder σ] {t : σ} :
    Tells feed n seen t (fun f => choice.chooseFrom (puller f) b)
      (do .coerced (← choice.chosen b) b.ty) fun _ _ t' => t' = t := by
  have hb : b.At feed seen (fun _ => 0) b := ⟨rfl, rfl, rfl, hargs.at_start⟩
  have hfind : Tells feed n seen b
      (fun f => do
        let item ← choice.find (puller f)
        coerce (puller f) item b.ty)
      (do .coerced (← choice.chosen b) b.ty) fun _ _ _ => True :=
    (find_tells h hargs hb (fun _ => rfl) choice).bind fun _ item _ _ hitem _ =>
      (coerce_tells h (hitem.chosen_unpulled hargs) b.ty).imp fun _ _ _ _ _ _ => trivial
  refine Tracks.andThen (Tracks.aside hfind) ?_
  rintro seen' item ⟨_, _⟩ _ _ - - ⟨rfl, rfl, rfl, -⟩
  exact Tells.pure rfl

theorem apply_tells (hx : x.Unpulled) (hkind : b.ty.kind = .arrow) (hs : Placed feed b choice seen 0 s) :
    Tells feed n seen s (fun f => choice.apply (puller f) x)
      (do .ask (← choice.view b) (.applied x)) fun seen' _ s' => Placed feed b choice seen' 0 s' := by
  have hact {seen : Reach} {item item' : Value} (hitem : (choice.view b).Gives feed item)
      (hat : item.At feed seen 0 item') :
      Tracks feed n seen item' (fun f => (puller f).apply x) (.ask item (.applied x)) fun seen' y a v bytes =>
        ∃ k, item.At feed seen' k v ∧ (fun _ y a k _ bytes => a = y ∧ bytes = [] ∧ k = 0) seen' y a k v bytes := by
    refine Tracks.imp (h.apply (hitem.choice_unpulled hargs) hx hat) ?_
    rintro seen' y _ v _ - - ⟨rfl, rfl, hv⟩
    exact ⟨0, hv, rfl, rfl, rfl⟩
  suffices hfollows : Tracks feed n seen s (fun f => choice.apply (puller f) x)
      (do .ask (← choice.view b) (.applied x))
      (Worked feed b choice fun _ y a k _ bytes => a = y ∧ bytes = [] ∧ k = 0) by
    refine Tracks.imp hfollows ?_
    rintro seen' y _ s' _ - - ⟨_, _, _, hs', rfl, rfl, rfl⟩
    exact ⟨rfl, rfl, hs'⟩
  obtain ⟨b', _ | item'⟩ := s
  · obtain ⟨places, hb, hsame, -, hplaces⟩ := hs
    have hview : choice.view b =
        (do .coerced (← choice.chosen { b with args := Value.copyAll b.args }) b.ty) := by
      rw [Choice.view, if_pos hkind]
      cases hty : b.ty <;> simp [hty, Ty.kind] at hkind ⊢
      rfl
    obtain ⟨name, ty, args'⟩ := b'
    obtain rfl : ty = b.ty := hb.ty_eq
    obtain rfl : name = b.name := hb.name_eq
    have hcopies : Value.UnpulledAll (Value.copyAll b.args) := hargs.copyAll
    have hchoose : Tells feed n seen ((⟨b.name, b.ty, args'⟩, none) : Bound × Option Value)
        (fun f => holding [x] (choice.chooseFrom (puller f) ⟨b.name, b.ty, Value.copyAll b.args⟩))
        (do .coerced (← choice.chosen { b with args := Value.copyAll b.args }) b.ty) _ :=
      (chooseFrom_tells (b := ⟨b.name, b.ty, Value.copyAll b.args⟩) h hcopies).holding
    have hfound : Tells feed n seen ((⟨b.name, b.ty, args'⟩, none) : Bound × Option Value)
        (fun f => holding [x] (choice.chooseFrom (puller f) ⟨b.name, b.ty, Value.copyAll args'⟩))
        (choice.view b) fun _ _ t' => t' = (⟨b.name, b.ty, args'⟩, none) := by
      rw [hsame hkind, hview]
      exact hchoose
    refine Tracks.look (Tracks.look (hfound.bind ?_))
    rintro seen' item _ hfurther hitem rfl
    exact Tracks.afterChange (Tracks.look (within_tracks (m := fun item => .ask item (.applied x)) (hb.mono hfurther)
      hsame hitem (hact hitem (hitem.choice_unpulled hargs).at_start)))
  · obtain ⟨places, hb, hsame, item, hitem, hat⟩ := hs
    exact Tracks.look (Tracks.look (Tracks.known hitem (within_tracks (m := fun item => .ask item (.applied x)) hb
      hsame hitem (hact hitem hat))))

end

theorem onChosen_orFail (act : Act Value (Option α)) (error : Error) (s : Bound × Option Value) :
    (match s with
      | (b, some item) => within item (fun item => (b, some item)) (act >>= orFail error)
      | (_, none) => fail (.runtime .pastEnd) : Act (Bound × Option Value) α) =
    (match s with
      | (b, some item) => within item (fun item => (b, some item)) act
      | (_, none) => fail (.runtime .pastEnd)) >>= orFail error := by
  obtain ⟨b, _ | item⟩ := s
  · rfl
  · exact within_orFail ..

theorem onItem_orFail (p : Puller) (act : Act Value (Option α)) (error : Error) :
    choice.onItem p (act >>= orFail error) = choice.onItem p act >>= orFail error := by
  rw [onItem, onItem, bind_assoc]
  refine bind_congr fun s => ?_
  dsimp only
  split <;> simp only [bind_assoc]
  · exact bind_congr fun _ => bind_congr fun _ => bind_congr fun _ => bind_congr fun _ =>
      bind_congr (onChosen_orFail act error)
  · exact bind_congr (onChosen_orFail act error)

theorem kind_of_gives_view (hkind : (b.suspend (.pick choice none)).kind = .str)
    (h : (choice.view b).Gives feed value) : value.kind = .str := by
  obtain ⟨item, -, hitem⟩ := View.gives_bind_iff.1 h
  have htarget : ∃ endless, target b.ty = .str endless := by
    cases hty : b.ty <;> simp [Bound.suspend, Value.kind, Task.kind, Ty.kind, hty, target] at hkind ⊢
  obtain ⟨endless, htarget⟩ := htarget
  rw [htarget, View.coerced.eq_def] at hitem
  cases hitemKind : item.kind <;> simp [hitemKind] at hitem
  all_goals subst hitem
  all_goals first | exact hitemKind | rfl

theorem takeNumber_tells (h : Pulls feed n) (hargs : b.Unpulled)
    (hkind : (b.suspend (.pick choice none)).kind = .str) (error : Error) :
    Tells feed n seen ((b, none) : Bound × Option Value) (fun f => choice.takeNumber (puller f) >>= orFail error)
      (.blaming error do .ask (← choice.view b) .taken) fun _ _ _ => True := by
  have hb : b.At feed seen (fun _ => 0) b := ⟨rfl, rfl, rfl, hargs.at_start⟩
  have hnot : b.ty.kind ≠ .arrow := fun harrow => by simp [Bound.suspend, Value.kind, Task.kind, harrow] at hkind
  have htaken : Tells feed n seen ((b, none) : Bound × Option Value)
      (fun f => choice.onItem (puller f) (takeOrFail error f)) (do .blaming error (.ask (← choice.view b) .taken))
      fun _ _ _ => True :=
    onItem_of_none h hargs hnot hb (fun _ => rfl) fun _ hitem =>
      (h.taken error (hitem.choice_unpulled hargs) (kind_of_gives_view hkind hitem)).within.imp fun _ _ _ _ _ _ => trivial
  rw [← View.blaming_bind_blaming]
  refine Tracks.blaming htaken fun f w => ?_
  rw [takeOrFail, onItem_orFail, bind_run, bind_run, takeNumber]
  cases choice.onItem (puller f) (puller f).takeNumber ((b, none), w) with
  | ok number s => cases number <;> rfl
  | error stop s => cases stop <;> rfl

end Choice

theorem Bound.on_tells {m : Value → View α} {act : Nat → Act Value α}
    (h : ∀ seen a, b.args[k]? = some a → Tells feed n seen a act (m a) fun _ _ _ => True) :
    Tells feed n seen b (fun f => Bound.on k (act f)) (View.arg b k >>= m) fun _ _ _ => True := by
  refine (Bound.arg_tells rfl rfl).bind ?_
  rintro seen' a _ - ha rfl
  exact Tracks.look ((h seen' a (View.gives_arg_iff.1 ha)).within.imp fun _ _ _ _ _ _ => trivial)

theorem Bound.giveCopy_tells (hargs : b.Unpulled) (k : Nat) (kind : Kind) :
    Tells feed n seen b
      (fun _ => Bound.on k do
        requireKind kind
        return (← look).copy)
      (do
        let value ← .arg b k
        .expectKind value kind
        return value.copy) fun _ _ _ => True := by
  refine Bound.on_tells fun seen a ha => (requireKind_tells (hargs.getElem? ha).at_start kind).bind ?_
  rintro seen' ⟨⟩ _ - - rfl
  exact Tracks.look (Tells.pure trivial)

theorem Bound.give_tells (h : Pulls feed n) (hargs : b.Unpulled) (k : Nat) (how : Handing) :
    Tells feed n seen b (fun f => Bound.give (puller f) k how) (View.given b k how) fun _ _ _ => True := by
  have hb : b.At feed seen (fun _ => 0) b := ⟨rfl, rfl, rfl, hargs.at_start⟩
  cases how with
  | itself => exact (Bound.arg_tells rfl rfl).imp fun _ _ _ _ _ _ => trivial
  | copy => exact (Bound.arg_tells rfl rfl).bind fun _ _ _ _ _ _ => Tells.pure trivial
  | number => exact (h.numberArg hargs hb rfl).bind fun _ _ _ _ _ _ => Tells.pure trivial
  | text => exact (h.bytesArg hargs hb rfl).bind fun _ _ _ _ _ _ => Tells.pure trivial
  | list => exact Bound.giveCopy_tells hargs k .lst
  | function => exact Bound.giveCopy_tells hargs k .fn
  | description => exact Tracks.look (Tells.pure trivial)

theorem finish_tells [Holder σ] {s : σ} (h : Pulls feed n) (builtin : Builtin) (hargs : b.Unpulled) :
    Tells feed n seen s (fun f => finish (puller f) builtin b) (View.finished builtin b) fun _ _ s' => s' = s := by
  unfold finish View.finished
  cases builtin.job.start with
  | inr task => exact Tells.pure rfl
  | inl given =>
    refine Tracks.andThen (Tracks.aside (Bound.give_tells h hargs given.2 given.1)) ?_
    rintro seen' x ⟨_, _⟩ _ _ - - ⟨rfl, rfl, rfl, -⟩
    exact Tells.pure rfl

theorem applyCurried_tells [Holder σ] {s : σ} (h : Pulls feed n) (builtin : Builtin) (ty : Ty)
    {args args' : List Value} (hargs : Value.copyAll args' = Value.copyAll args) (hunpulled : Value.UnpulledAll args)
    (hx : x.Unpulled) :
    Tells feed n seen s (fun f => applyCurried (puller f) builtin ty args' x) (View.curriedApplied builtin ty args x)
      fun _ _ s' => s' = s := by
  unfold applyCurried View.curriedApplied
  rw [hargs]
  cases ty with
  | arrow wanted result =>
    refine (coerce_tells h hx wanted).bind ?_
    rintro seen' y _ - hy rfl
    dsimp only
    split
    · exact Tells.pure rfl
    · exact finish_tells h builtin (hunpulled.copyAll.append ⟨hy.coerced_unpulled hx, trivial⟩)
  | _ => exact Tells.fail _

structure StagesAt (feed : Feed) (seen : Reach) (stages stages' : List Value) : Prop where
  length_eq : stages'.length = stages.length
  stage : ∀ (i : Nat) (stage stage' : Value), stages[i]? = some stage → stages'[i]? = some stage' →
    stage.At feed seen 0 stage'

theorem applyStages_tells (h : Pulls feed n) {stages stages' : List Value} (hstages : Value.UnpulledAll stages)
    (hat : StagesAt feed seen stages stages') (hx : x.Unpulled) :
    Tells feed n seen stages' (fun f => applyStages (puller f) x stages') (View.through stages x) fun seen' _ s =>
      StagesAt feed seen' stages s := by
  induction stages generalizing seen stages' x with
  | nil =>
    obtain rfl : stages' = [] := List.length_eq_zero_iff.1 hat.length_eq
    exact Tells.pure hat
  | cons stage rest ih =>
    cases stages' with
    | nil => cases hat.length_eq
    | cons stage' rest' =>
      have hhead : Tells feed n seen (stage' :: rest')
          (fun f => within stage' (· :: rest') ((puller f).apply x)) (.ask stage (.applied x)) _ :=
        (h.apply hstages.1 hx (hat.stage 0 _ _ rfl rfl)).within
      refine hhead.bind ?_
      rintro seen' y _ hfurther hy ⟨stage'', rfl, hstage''⟩
      have hrest : StagesAt feed seen' rest rest' :=
        ⟨Nat.succ.inj hat.length_eq, fun i a a' ha ha' => (hat.stage (i + 1) a a' ha ha').mono hfurther⟩
      have htail : Tells feed n seen' (stage'' :: rest')
          (fun f => within rest' (stage'' :: ·) (applyStages (puller f) y rest')) (View.through rest y) _ :=
        (ih hstages.2 hrest (hy.applied_unpulled hstages.1 hx)).within
      refine Tracks.look (htail.imp ?_)
      rintro seen'' z _ hfurther' - ⟨rest'', rfl, hrest''⟩
      refine ⟨congrArg Nat.succ hrest''.length_eq, fun i a a' ha ha' => ?_⟩
      cases i with
      | zero =>
        cases ha
        cases ha'
        exact hstage''.mono hfurther'
      | succ i => exact hrest''.stage i a a' ha ha'

theorem Bound.getElem?_of_on {act : Act Value α} {a : α} {w w' : World} (hne : j ≠ k)
    (h : Bound.on k act (b, w) = .ok a (b', w')) : b'.args[j]? = b.args[j]? := by
  simp only [Bound.on, Bound.arg, bind_run, look_run] at h
  cases hk : b.args[k]? with
  | none => simp [hk, fail_run] at h
  | some value =>
    simp only [hk, pure_run, within_run] at h
    obtain ⟨⟨s, w₁⟩, -, rfl, -⟩ := Result.on_eq_ok_iff.1 h
    exact List.getElem?_set_ne hne.symm

theorem applyFlipped_tells (h : Pulls feed n) (hargs : b.Unpulled) (hx : x.Unpulled)
    (hs : b.Works feed .flip seen 0 b' .flip) :
    Tells feed n seen b' (fun f => applyFlipped (puller f) x)
      (do
        let second := (← .arg b 1).copy
        .ask (← .applyArg b 0 x) (.applied second)) fun seen' _ b'' => b.Works feed .flip seen' 0 b'' .flip := by
  obtain ⟨places, hb, -, h0, hsecond⟩ := hs
  refine (Bound.arg_tracks hb.name_eq hsecond).bind ?_
  rintro seen' second second' _ _ hfurther hgives ⟨rfl, rfl, hcopy⟩
  rw [hcopy]
  have hsecondu : second.copy.Unpulled := (hargs.getElem? (View.gives_arg_iff.1 hgives)).copy
  have hhalf := Tracks.keeping (Q := fun b'' => b''.args[1]?.map Value.copy = b.args[1]?.map Value.copy)
    (h.applyArg hargs (hb.mono hfurther) h0 hx) fun _ _ _ _ _ hrun =>
      (congrArg _ (Bound.getElem?_of_on (by decide) hrun)).trans hsecond
  refine hhalf.holding.bind ?_
  rintro seen'' half _ b'' _ - hhalf ⟨⟨rfl, rfl, hb''⟩, hsecond'⟩
  have hhalfu := hhalf.applyArg_unpulled hargs hx
  refine Tracks.andThen (Tracks.aside (h.apply hhalfu hsecondu hhalfu.at_start)) ?_
  rintro seen₃ y ⟨_, _⟩ _ _ hfurther' - ⟨rfl, rfl, rfl, -⟩
  exact Tells.pure ⟨places, hb''.mono hfurther', rfl, h0, hsecond'⟩

end PullScript
