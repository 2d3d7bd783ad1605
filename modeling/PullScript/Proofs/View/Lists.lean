import PullScript.Proofs.View.Cutting

namespace PullScript

open Act

variable {α σ : Type} {feed : Feed} {n : Nat} {seen : Reach} {value value' : Value} {b b' : Bound}
  {places : Nat → Nat} {k : Nat}

theorem Bound.arg_tells (hname : b'.name = b.name) (h : b'.args[k]? = b.args[k]?) :
    Tells feed n seen b' (fun _ => Bound.arg k) (View.arg b k) fun _ _ b'' => b'' = b' := by
  refine Tracks.look ?_
  rw [h, hname, View.arg]
  cases b.args[k]? with
  | none => exact Tells.fail _
  | some value => exact Tells.pure rfl

theorem Bound.arg_tracks (hname : b'.name = b.name) (h : b'.args[k]?.map Value.copy = b.args[k]?.map Value.copy) :
    Tracks feed n seen b' (fun _ => Bound.arg k) (View.arg b k) fun _ a a' b'' bytes =>
      bytes = [] ∧ b'' = b' ∧ a'.copy = a.copy := by
  refine Tracks.look ?_
  rw [View.arg]
  cases hk : b.args[k]? with
  | none =>
    rw [hk, Option.map_none, Option.map_eq_none_iff] at h
    rw [h, hname]
    exact Tracks.fail _
  | some a =>
    rw [hk, Option.map_some, Option.map_eq_some_iff] at h
    obtain ⟨a', hk', hcopy⟩ := h
    rw [hk']
    exact Tracks.pure ⟨rfl, rfl, hcopy⟩

theorem skipItems_tracks (h : Pulls feed n) (hvalue : value.Unpulled) (hat : value.At feed seen 0 value') (m : Nat) :
    Tracks feed n seen value' (fun f => skipItems (puller f) m)
      (do
        .expectKind value .lst
        (ListView.of value).skip m)
      fun seen' k _ v bytes => bytes = [] ∧ value.At feed seen' k v := by
  have hlist := h.list hvalue
  refine (requireKind_tells hat .lst).bind ?_
  rintro seen₁ ⟨⟩ _ hfurther - rfl
  refine Tracks.loop (I := fun seen c left v => c.1 = left ∧ value.At feed seen c.2 v)
    (N := fun seen k _ v => value.At feed seen k v) ?_ ⟨rfl, hat.mono hfurther⟩
  rintro seen ⟨left, k⟩ _ v ⟨rfl, hv⟩
  by_cases hleft : left = 0
  · simp only [hleft, if_true]
    exact .pure ⟨rfl, hv⟩
  · simp only [hleft, if_false]
    refine (hlist.ended hv).bind fun seen' ended v' _ _ hv' => ?_
    cases ended with
    | true => exact .pure ⟨rfl, hv'⟩
    | false => exact (hlist.advance hv').bind fun _ _ _ _ _ hv'' => .pure ⟨rfl, rfl, hv''⟩

theorem drainItems_tells (h : Pulls feed n) (hvalue : value.Unpulled) (hat : value.At feed seen 0 value') :
    Tells feed n seen value' (fun f => drainItems (puller f))
      (do
        .expectKind value .lst
        (ListView.of value).gather)
      fun seen' _ v => ∃ k, value.At feed seen' k v := by
  have hlist := h.list hvalue
  refine (requireKind_tells hat .lst).bind ?_
  rintro seen₁ ⟨⟩ _ hfurther - rfl
  refine Tracks.imp (Tracks.loop (I := fun seen c items v => items = c.2 ∧ value.At feed seen c.1 v)
    (N := fun seen items items' v => items' = items ∧ ∃ k, value.At feed seen k v) ?_ ⟨rfl, hat.mono hfurther⟩) ?_
  · rintro seen ⟨k, items⟩ _ v ⟨rfl, hv⟩
    refine (hlist.next hv).holding.bind fun seen' item v' _ _ hv' => ?_
    cases item with
    | none => exact .pure ⟨rfl, rfl, k, hv'⟩
    | some item => exact .pure ⟨rfl, rfl, hv'⟩
  · rintro seen' items _ v _ - - ⟨rfl, rfl, hv⟩
    exact ⟨rfl, rfl, hv⟩

theorem answerItems_walks {items items' : List Value} (hitems : Value.copyAll items' = Value.copyAll items) :
    (ListView.ofItems items).Walks feed n (fun _ k position => position = min k items.length)
      (fun _ position => items'.length ≤ position) (fun _ => answerItems items' .ended)
      (fun _ => answerItems items' .current) fun _ => answerItems items' .advance := by
  have hlength := Value.length_eq_of_copyAll_eq hitems
  have hitem (k : Nat) : items'[min k items.length]?.map Value.copy = items[k]?.map Value.copy := by
    rw [Value.map_copy_of_copyAll_eq hitems]
    by_cases hk : k < items.length
    · rw [Nat.min_eq_left (by omega)]
    · rw [List.getElem?_eq_none (by omega), List.getElem?_eq_none (by omega)]
  constructor
  · rintro seen k _ rfl
    refine Tracks.look ?_
    rw [← Option.isNone_map, hitem, Option.isNone_map]
    refine Tells.pure ⟨rfl, fun hnone => ?_⟩
    have hle := List.getElem?_eq_none_iff.1 (Option.isNone_iff_eq_none.1 hnone)
    omega
  · rintro seen k _ rfl
    refine Tracks.look ?_
    change Tracks _ _ _ _ _ (View.getOr (.runtime .pastEnd) (items[k]?.map Value.copy)) _
    rw [← hitem]
    cases items'[min k items.length]? with
    | none => exact Tells.fail _
    | some item => exact Tells.pure rfl
  · rintro seen k _ rfl
    refine Tells.change (f := fun position => if items'[position]?.isSome then position + 1 else position) ?_
    rw [← Option.isSome_map, hitem, Option.isSome_map]
    by_cases hk : k < items.length
    · simp only [List.getElem?_eq_getElem hk, Option.isSome_some, if_true]
      omega
    · simp only [List.getElem?_eq_none (Nat.le_of_not_lt hk), Option.isSome_none, Bool.false_eq_true, if_false]
      omega

namespace Recast.InStep

variable {ty : Ty} {position : Nat}

theorem next (h : InStep ty k position) : InStep ty (k + 1) (position + 1) :=
  h.imp_right fun hk => by rw [hk]

theorem target_eq (h : InStep ty k position) :
    ty.elements[position % ty.elements.length]? = ty.elements[k % ty.elements.length]? := by
  obtain hfew | rfl := h
  · obtain hnone | hone := Nat.le_one_iff_eq_zero_or_eq_one.1 hfew
    · rw [List.eq_nil_of_length_eq_zero hnone]
      rfl
    · rw [hone, Nat.mod_one, Nat.mod_one]
  · rfl

end Recast.InStep

theorem answerRecast_walks (h : Pulls feed n) (hvalue : value.Unpulled) (ty : Ty) :
    ((ListView.of value).mapped fun k item =>
      match ty.elements[k % ty.elements.length]? with
      | some target => .coerced item target
      | none => return item).Walks feed n
      (fun seen k s => value.At feed seen k s.1 ∧ Recast.InStep ty k s.2) (fun seen s => s.1.Over feed seen)
      (fun f => answerRecast (puller f) ty .ended) (fun f => answerRecast (puller f) ty .current)
      fun f => answerRecast (puller f) ty .advance := by
  have hlist := h.list hvalue
  constructor
  · rintro seen k ⟨source, position⟩ ⟨hsource, hstep⟩
    refine (hlist.endedOver hsource).onFirst.imp ?_
    rintro seen' ended _ - - ⟨source', rfl, hsource', hover⟩
    exact ⟨⟨hsource', hstep⟩, hover⟩
  · rintro seen k ⟨source, position⟩ ⟨hsource, hstep⟩
    refine (hlist.current hsource).onFirst.bind ?_
    rintro seen' item _ - hitem ⟨source', rfl, hsource'⟩
    refine Tracks.look ?_
    dsimp only
    rw [hstep.target_eq]
    cases ty.elements[k % ty.elements.length]? with
    | none => exact Tells.pure ⟨hsource', hstep⟩
    | some target =>
      refine (coerce_tells h (hitem.item_unpulled hvalue) target).imp ?_
      rintro seen'' x _ hfurther - rfl
      exact ⟨hsource'.mono hfurther, hstep⟩
  · rintro seen k ⟨source, position⟩ ⟨hsource, hstep⟩
    refine Tracks.andThen (hlist.advance hsource).onFirst ?_
    rintro seen' _ _ _ _ - - ⟨rfl, rfl, source', rfl, hsource'⟩
    exact Tells.change ⟨hsource', hstep.next⟩

theorem answerMap_walks (h : Pulls feed n) (hargs : b.Unpulled) :
    ((ListView.arg b 1).mapped fun _ item => .applyArg b 0 item).Walks feed n
      (fun seen k b' => b.Works feed .map seen k b' .map) (fun seen b' => (b'.suspend .map).Over feed seen)
      (fun f => answerMap (puller f) .ended) (fun f => answerMap (puller f) .current)
      fun f => answerMap (puller f) .advance := by
  constructor
  · rintro seen _ b' ⟨places, hb, h0, rfl⟩
    exact (h.listEndedOverArg hargs hb 1).imp fun _ _ _ _ _ ⟨hb', hover⟩ =>
      ⟨⟨places, hb', h0, rfl⟩, fun he => (hover he).suspend rfl⟩
  · rintro seen _ b' ⟨places, hb, h0, rfl⟩
    refine (h.currentArg hargs hb 1).bind fun seen' item b'' _ hitem hb' => ?_
    refine (h.applyArg hargs hb' h0 ?_).imp fun _ _ _ _ _ hb'' => ⟨places, hb'', h0, rfl⟩
    exact ListView.unpulled_of_item_arg hargs hitem
  · rintro seen _ b' ⟨places, hb, h0, rfl⟩
    refine (h.advanceArg hargs hb 1).imp fun _ _ _ _ _ hb' => ⟨_, hb', ?_, Function.update_self ..⟩
    rw [Function.update_of_ne (by decide)]
    exact h0

theorem answerRepeat_walks :
    (ListView.endless (View.arg b 0)).Walks feed n (fun seen k b' => b.Works feed .repeat seen k b' .repeat)
      (fun seen b' => (b'.suspend .repeat).Over feed seen)
      (fun f => answerRepeat (puller f) .ended) (fun f => answerRepeat (puller f) .current)
      fun f => answerRepeat (puller f) .advance := by
  constructor
  · exact fun hs => Tells.pure ⟨hs, nofun⟩
  · rintro seen k b' ⟨places, hb, hargs⟩
    refine (Bound.arg_tracks hb.name_eq (Value.map_copy_of_copyAll_eq hargs 0)).bind ?_
    rintro seen' item item' _ _ hfurther - ⟨rfl, rfl, hcopy⟩
    rw [hcopy]
    exact Tells.pure ⟨places, hb.mono hfurther, hargs⟩
  · exact fun hs => Tells.pure hs

theorem ZipWith.walks (h : Pulls feed n) (hargs : b.Unpulled) :
    (ListView.zipped (.arg b 1) (.arg b 2) fun x y => do
      .ask (← .applyArg b 0 x) (.applied y)).Walks feed n
      (fun seen k b' => b.Works feed .zipWith seen k b' .zipWith)
      (fun seen b' => (b'.suspend .zipWith).Over feed seen)
      (fun f => ZipWith.answer (puller f) .ended) (fun f => ZipWith.answer (puller f) .current)
      fun f => ZipWith.answer (puller f) .advance := by
  constructor
  · rintro seen k b' ⟨places, hb, h0, h1, h2⟩
    rw [← h1] at *
    refine (h.listEndedOverArg hargs hb 1).bind fun seen' ended b'' _ _ ⟨hb', hover⟩ => ?_
    cases ended with
    | true => exact Tells.pure ⟨⟨places, hb', h0, rfl, h2⟩, fun _ => (hover rfl).suspend (.inl rfl)⟩
    | false =>
      have hright := h.listEndedOverArg hargs hb' 2
      rw [h2] at hright
      exact hright.imp fun _ _ _ _ _ ⟨hb'', hover'⟩ =>
        ⟨⟨places, hb'', h0, rfl, h2⟩, fun he => (hover' he).suspend (.inr rfl)⟩
  · rintro seen k b' ⟨places, hb, h0, h1, h2⟩
    rw [← h1] at *
    refine (h.currentArg hargs hb 1).bind fun seen₁ x b₁ _ hx hb₁ => ?_
    have hright : Tells feed n seen₁ b₁ (fun f => holding [x] (Bound.on 2 (puller f).current)) _ _ :=
      (h.currentArg hargs hb₁ 2).holding
    rw [h2] at hright
    refine hright.bind fun seen₂ y b₂ _ hy hb₂ => ?_
    have hxu := ListView.unpulled_of_item_arg hargs hx
    have hyu := ListView.unpulled_of_item_arg hargs hy
    refine (h.applyArg hargs hb₂ h0 hxu).holding.bind fun seen₃ half b₃ _ hhalf hb₃ => ?_
    have hhalfu := hhalf.applyArg_unpulled hargs hxu
    refine Tracks.andThen (Tracks.aside (h.apply hhalfu hyu hhalfu.at_start)) ?_
    rintro seen₄ z ⟨_, _⟩ _ _ hfurther - ⟨rfl, rfl, rfl, -⟩
    exact Tells.pure ⟨places, hb₃.mono hfurther, h0, rfl, h2⟩
  · rintro seen k b' ⟨places, hb, h0, h1, h2⟩
    rw [← h1] at *
    refine (h.advanceArg hargs hb 1).bind fun seen' _ b'' _ _ hb' => ?_
    have hright := h.advanceArg hargs hb' 2
    rw [Function.update_of_ne (by decide), h2] at hright
    refine hright.imp fun _ _ _ _ _ hb'' => ⟨_, hb'', ?_, ?_, Function.update_self ..⟩
    · rw [Function.update_of_ne (by decide), Function.update_of_ne (by decide)]
      exact h0
    · rw [Function.update_of_ne (by decide), Function.update_self]

namespace Take

variable {s : Bound × Take}

section

variable (h : Pulls feed n) (hargs : b.Unpulled)
include h hargs

theorem readLimit_tells
    (hs : b.Works feed (.take {}) seen k s.1 (.take s.2)) :
    Tells feed n seen s (fun f => readLimit (puller f)) (View.argCount b 0) fun seen' limit s' =>
      b.Works feed (.take {}) seen' k s'.1 (.take s'.2) ∧ s'.2 = ⟨some limit, k⟩ := by
  obtain ⟨b', limit, position⟩ := s
  obtain ⟨places, hb, rfl, h1, h0, hlimit⟩ := hs
  refine Tracks.look ?_
  cases limit with
  | some limit =>
    exact Tracks.given (hlimit limit rfl) (Tells.pure ⟨⟨places, hb, rfl, h1, nofun, hlimit⟩, rfl⟩)
  | none =>
    refine Tracks.andThen (h.countArg hargs hb (h0 rfl)).onFirst ?_
    rintro seen' limit _ _ _ - hgives ⟨rfl, rfl, b'', rfl, hb'⟩
    refine Tracks.afterChange (Tells.pure ⟨⟨places, hb', rfl, h1, nofun, ?_⟩, rfl⟩)
    rintro _ ⟨⟩
    exact hgives

theorem ended_tells
    (hs : b.Works feed (.take {}) seen k s.1 (.take s.2)) :
    Tells feed n seen s (fun f => ended (puller f)) (((ListView.arg b 1).taken (.argCount b 0)).ended k)
      fun seen' e s' => b.Works feed (.take {}) seen' k s'.1 (.take s'.2) ∧
        (e = true → (s'.1.suspend (.take s'.2)).Over feed seen') := by
  refine (readLimit_tells h hargs hs).bind ?_
  rintro seen' limit ⟨b', _⟩ - - ⟨hs', rfl⟩
  refine Tracks.look ?_
  dsimp only
  split
  case isTrue hle => exact Tells.pure ⟨hs', fun _ => .done _ _ _ ⟨limit, rfl, hle⟩⟩
  case isFalse =>
    obtain ⟨places, hb, hk, h1, hlimit⟩ := hs'
    have hended := (h.listEndedOverArg hargs hb 1).onFirst (t := (⟨some limit, k⟩ : Take))
    rw [h1] at hended
    refine hended.imp ?_
    rintro seen'' ended _ - - ⟨b'', rfl, hb', hover⟩
    exact ⟨⟨places, hb', hk, h1, hlimit⟩, fun he => (hover he).suspend rfl⟩

theorem walks :
    ((ListView.arg b 1).taken (.argCount b 0)).Walks feed n
      (fun seen k s => b.Works feed (.take {}) seen k s.1 (.take s.2))
      (fun seen s => (s.1.suspend (.take s.2)).Over feed seen) (fun f => answer (puller f) .ended) (fun f => answer (puller f) .current)
      fun f => answer (puller f) .advance := by
  constructor
  · exact fun hs => ended_tells h hargs hs
  · intro seen k s hs
    refine (ended_tells h hargs hs).bind fun seen' ended s' _ _ ⟨hs', _⟩ => ?_
    cases ended with
    | true => exact Tells.fail _
    | false =>
      obtain ⟨b', state⟩ := s'
      obtain ⟨places, hb, hk, h1, hlimit⟩ := hs'
      have hcurrent := (h.currentArg hargs hb 1).onFirst (t := state)
      rw [h1] at hcurrent
      refine hcurrent.imp ?_
      rintro seen'' item _ - - ⟨b'', rfl, hb'⟩
      exact ⟨places, hb', hk, h1, hlimit⟩
  · rintro seen k ⟨b', limit, position⟩ ⟨places, hb, rfl, h1, h0, hlimit⟩
    have hadvance := (h.advanceArg hargs hb 1).onFirst (t := (⟨limit, position⟩ : Take))
    rw [h1] at hadvance
    refine Tracks.andThen hadvance ?_
    rintro seen' _ _ _ _ - - ⟨rfl, rfl, b'', rfl, hb'⟩
    refine Tells.change ⟨_, hb', rfl, Function.update_self .., ?_, hlimit⟩
    rw [Function.update_of_ne (by decide)]
    exact h0

end

end Take

def afterOnce (first : Act (Bound × Bool) Unit) (j : Nat) (act : Act Value α) : Act (Bound × Bool) α := do
  if !(← look).2 then
    first
    change fun (b, _) => (b, true)
  onFirst (Bound.on j act)

/-- An argument that is led to where the items begin when they are first needed, `start` saying where that
is. -/
def Shifted (feed : Feed) (b : Bound) (j : Nat) (start : View Nat) (seen : Reach) (k : Nat)
    (s : Bound × Bool) : Prop :=
  ∃ places, b.At feed seen places s.1 ∧ (∀ i ≠ j, places i = 0) ∧
    if s.2 then ∃ first, start.Gives feed first ∧ places j = first + k else k = 0 ∧ places j = 0

def Begins (feed : Feed) (n : Nat) (b : Bound) (j : Nat) (start : View Nat)
    (first : Nat → Act (Bound × Bool) Unit) : Prop :=
  ∀ seen b', b.At feed seen (fun _ => 0) b' → Tracks feed n seen (b', false) first start
    fun seen' place _ s bytes => bytes = [] ∧
      ∃ places, b.At feed seen' places s.1 ∧ (∀ i ≠ j, places i = 0) ∧ places j = place

theorem afterOnce_tells {j d : Nat} {start : View Nat} {first : Nat → Act (Bound × Bool) Unit}
    (hfirst : Begins feed n b j start first) {act : Nat → Act Value α} {m : Nat → View α} {s : Bound × Bool}
    (hs : Shifted feed b j start seen k s)
    {R : Reach → α → Bound → Prop} (hact : ∀ {seen places b'}, b.At feed seen places b' →
      Tells feed n seen b' (fun f => Bound.on j (act f)) (m (places j)) fun seen' x b'' =>
        b.At feed seen' (Function.update places j (places j + d)) b'' ∧ R seen' x b'') :
    Tells feed n seen s (fun f => afterOnce (first f) j (act f)) (do m ((← start) + k)) fun seen' x s' =>
      Shifted feed b j start seen' (k + d) s' ∧ s'.2 = true ∧ R seen' x s'.1 := by
  -- The items have begun, and the argument is at the one that is asked for.
  have hrest {seen : Reach} {b' : Bound} {places : Nat → Nat} {place : Nat} (hb : b.At feed seen places b')
      (hothers : ∀ i ≠ j, places i = 0) (hplace : start.Gives feed place) (hj : places j = place + k) :
      Tells feed n seen (b', true) (fun f => onFirst (Bound.on j (act f))) (m (place + k)) fun seen' x s' =>
        Shifted feed b j start seen' (k + d) s' ∧ s'.2 = true ∧ R seen' x s'.1 := by
    rw [← hj]
    refine (hact hb).onFirst.imp ?_
    rintro seen' x _ - - ⟨b'', rfl, hb', hR⟩
    refine ⟨⟨_, hb', fun i hi => ?_, place, hplace, ?_⟩, rfl, hR⟩
    · rw [Function.update_of_ne hi]
      exact hothers i hi
    · rw [Function.update_self, hj, Nat.add_assoc]
  obtain ⟨b', started⟩ := s
  obtain ⟨places, hb, hothers, hstarted⟩ := hs
  cases started with
  | true =>
    obtain ⟨place, hplace, hj⟩ := hstarted
    exact Tracks.known hplace (Tracks.look (hrest hb hothers hplace hj))
  | false =>
    obtain ⟨rfl, hj⟩ := hstarted
    obtain rfl : places = fun _ => 0 := funext fun i => if hi : i = j then hi ▸ hj else hothers i hi
    refine Tracks.look (Tracks.bind (hfirst seen b' hb) ?_)
    rintro seen' place _ ⟨b'', _⟩ _ - hplace ⟨rfl, places', hb', hothers', hj'⟩
    exact Tracks.afterChange (hrest hb' hothers' hplace hj')

section

variable (h : Pulls feed n) (hargs : b.Unpulled)
include h hargs

theorem shifted_walks {j : Nat} {start : View Nat}
    {first : Nat → Act (Bound × Bool) Unit} (hfirst : Begins feed n b j start first) :
    ((ListView.arg b j).shifted start).Walks feed n (Shifted feed b j start)
      (fun seen s => s.2 = true ∧ s.1.ArgOver feed seen j)
      (fun f => afterOnce (first f) j (puller f).listEnded) (fun f => afterOnce (first f) j (puller f).current)
      fun f => afterOnce (first f) j (puller f).advance := by
  constructor
  · intro seen k s hs
    refine (afterOnce_tells (d := 0) (m := (ListView.arg b j).ended)
      (R := fun seen' e b'' => e = true → b''.ArgOver feed seen' j) hfirst hs fun hb => ?_).imp ?_
    · simpa using h.listEndedOverArg hargs hb j
    · exact fun _ _ _ _ _ ⟨hs', hstarted, hover⟩ => ⟨hs', fun he => ⟨hstarted, hover he⟩⟩
  · intro seen k s hs
    refine (afterOnce_tells (d := 0) (m := (ListView.arg b j).item) (R := fun _ _ _ => True) hfirst hs
      fun hb => ?_).imp fun _ _ _ _ _ hs' => hs'.1
    simpa using h.currentArg hargs hb j
  · intro seen k s hs
    refine (afterOnce_tells (d := 1) (R := fun _ _ _ => True) hfirst hs fun hb => ?_).imp fun _ _ _ _ _ hs' => hs'.1
    simpa using h.advanceArg hargs hb j

theorem Drop.begins :
    Begins feed n b 1 (View.skipArg b) (fun f => do
      let m ← onFirst (countArg (puller f) 0)
      onFirst (Bound.on 1 (skipItems (puller f) m))) := by
  intro seen b' hb
  refine (h.countArg hargs hb rfl).onFirst.bind ?_
  rintro seen' m _ - - ⟨b'', rfl, hb'⟩
  refine (Tracks.onFirst (hb'.on (N := fun _ place _ i bytes => bytes = [] ∧ i = place) fun a a' ha hat => ?_)).imp ?_
  · refine (skipItems_tracks h (hargs.getElem? ha) hat m).imp ?_
    rintro seen'' place _ v _ - - ⟨rfl, hv⟩
    exact ⟨place, hv, rfl, rfl⟩
  · rintro seen'' place _ _ _ - - ⟨b₂, rfl, _, hb₂, rfl, rfl⟩
    exact ⟨rfl, _, hb₂, fun i hi => Function.update_of_ne hi .., Function.update_self ..⟩

theorem Drop.walks :
    ((ListView.arg b 1).shifted (.skipArg b)).Walks feed n (Shifted feed b 1 (.skipArg b))
      (fun seen s => (s.1.suspend (.drop s.2)).Over feed seen)
      (fun f => Drop.answer (puller f) .ended) (fun f => Drop.answer (puller f) .current)
      fun f => Drop.answer (puller f) .advance := by
  have hafter {α : Type} (p : Puller) (act : Act Value α) (s : (Bound × Bool) × World) :
      Drop.after p act s = afterOnce (do
        let m ← onFirst (countArg p 0)
        onFirst (Bound.on 1 (skipItems p m))) 1 act s := by
    simp only [Drop.after, afterOnce, bind_assoc]
  refine ((shifted_walks h hargs (Drop.begins h hargs)).imp ?_).congr (fun _ _ => hafter ..) (fun _ _ => hafter ..)
    fun _ _ => hafter ..
  exact fun seen s ⟨hskipped, hover⟩ => hover.suspend ⟨hskipped, rfl⟩

theorem Tail.begins :
    Begins feed n b 0 (do (ListView.of (← View.arg b 0)).second) (fun f => onFirst (Bound.on 0 do
      if ← (puller f).listEnded then fail (.runtime .tailOfEmpty)
      (puller f).advance)) := by
  intro seen b' hb
  refine (Tracks.onFirst (hb.on (N := fun _ place _ i bytes => bytes = [] ∧ i = place) fun a a' ha hat => ?_)).imp ?_
  · have hlist := h.list (hargs.getElem? ha)
    refine (hlist.ended hat).bind fun seen' ended v _ _ hv => ?_
    cases ended with
    | true => exact Tracks.congr (.fail (.runtime .tailOfEmpty)) fun _ _ => rfl
    | false =>
      refine Tracks.mapped (hlist.advance hv) ?_
      rintro seen'' _ _ v' _ - - ⟨rfl, rfl, hv'⟩
      exact ⟨1, hv', rfl, rfl⟩
  · rintro seen'' place _ _ _ - - ⟨b₂, rfl, _, hb₂, rfl, rfl⟩
    exact ⟨rfl, _, hb₂, fun i hi => Function.update_of_ne hi .., Function.update_self ..⟩

theorem Tail.walks :
    ((ListView.arg b 0).shifted do (ListView.of (← View.arg b 0)).second).Walks feed n
      (Shifted feed b 0 do (ListView.of (← View.arg b 0)).second)
      (fun seen s => (s.1.suspend (.tail s.2)).Over feed seen)
      (fun f => Tail.answer (puller f) .ended) (fun f => Tail.answer (puller f) .current)
      fun f => Tail.answer (puller f) .advance := by
  refine ((shifted_walks h hargs (Tail.begins h hargs)).imp ?_).congr (fun _ _ => rfl) (fun _ _ => rfl) fun _ _ => rfl
  exact fun seen s ⟨hstarted, hover⟩ => hover.suspend ⟨hstarted, rfl⟩

end

namespace Init

variable {s : Bound × Init Value}

section

variable (h : Pulls feed n) (hargs : b.Unpulled)
include h hargs

section

variable (hs : b.Works feed (.init {}) seen k s.1 (.init s.2))
include hs

theorem start_tracks :
    Tracks feed n seen s (fun f => start (puller f)) ((ListView.arg b 0).heldBack k)
      fun seen' front _ s' bytes => bytes = [] ∧ s'.2 = ⟨front.1, true⟩ ∧
        (∃ places, b.At feed seen' places s'.1 ∧ (∀ i ≠ 0, places i = 0) ∧ places 0 = front.2) ∧
        (front.1 = none → s'.1.ArgOver feed seen' 0) := by
  obtain ⟨b', held, started⟩ := s
  obtain ⟨places, hb, hothers, hstarted⟩ := hs
  cases started with
  | true =>
    obtain ⟨hheld, hover⟩ :
        ((ListView.arg b 0).heldBack k).Gives feed (held, places 0) ∧ (held = none → b'.ArgOver feed seen 0) :=
      hstarted
    exact Tracks.look (Tracks.given hheld (.pure ⟨rfl, rfl, ⟨places, hb, hothers, rfl⟩, hover⟩))
  | false =>
    obtain ⟨rfl, hplace⟩ : k = 0 ∧ places 0 = 0 := hstarted
    have hnext := (h.nextArg hargs hb 0).onFirst (t := (⟨held, false⟩ : Init Value))
    rw [hplace] at hnext
    refine Tracks.look (hnext.bind ?_)
    rintro seen' first _ - - ⟨b'', rfl, hb'⟩
    cases first with
    | none => exact .fail _
    | some first =>
      refine Tracks.change ⟨rfl, rfl, ⟨_, hb', fun i hi => ?_, Function.update_self ..⟩, nofun⟩
      rw [Function.update_of_ne hi]
      exact hothers i hi

theorem ended_tells :
    Tells feed n seen s (fun f => ended (puller f)) ((ListView.arg b 0).withoutLast.ended k)
      fun seen' e s' => b.Works feed (.init {}) seen' k s'.1 (.init s'.2) ∧ s'.2.started = true ∧
        (e = true → s'.1.ArgOver feed seen' 0) := by
  refine (start_tracks h hargs hs).bind ?_
  rintro seen' ⟨held, place⟩ _ ⟨b', _⟩ _ - hheld ⟨rfl, rfl, ⟨places, hb, hothers, rfl⟩, hover⟩
  refine Tracks.look ?_
  dsimp only
  cases held with
  | none => exact Tells.pure ⟨⟨places, hb, hothers, hheld, hover⟩, rfl, fun _ => hover rfl⟩
  | some item =>
    refine (h.listEndedOverArg hargs hb 0).onFirst.imp ?_
    rintro seen'' ended _ - - ⟨b'', rfl, hb', hover'⟩
    exact ⟨⟨places, hb', hothers, hheld, nofun⟩, rfl, hover'⟩

theorem advance_tracks :
    Tracks feed n seen s (fun f => advance (puller f)) ((ListView.arg b 0).heldBack (k + 1))
      fun seen' _ _ s' bytes => bytes = [] ∧ b.Works feed (.init {}) seen' (k + 1) s'.1 (.init s'.2) := by
  refine (start_tracks h hargs hs).bind ?_
  rintro seen' ⟨held, place⟩ _ ⟨b', _⟩ _ - hheld ⟨rfl, rfl, ⟨places, hb, hothers, rfl⟩, -⟩
  refine (h.nextOverArg hargs hb 0).onFirst.bind ?_
  rintro seen'' next _ - hnext ⟨b'', rfl, hb', hover⟩
  have hheld' : ((ListView.arg b 0).heldBack (k + 1)).Gives feed
      (next, if next.isSome then places 0 + 1 else places 0) := by
    refine hheld.bind (hnext.bind ?_)
    cases next <;> exact .pure _
  have hs' : b.Works feed (.init {}) seen'' (k + 1) b'' (.init ⟨next, true⟩) := by
    refine ⟨_, hb', fun i hi => ?_, ?_, hover⟩
    · rw [Function.update_of_ne hi]
      exact hothers i hi
    · change ((ListView.arg b 0).heldBack (k + 1)).Gives feed (next, Function.update places 0 _ 0)
      rw [Function.update_self]
      exact hheld'
  cases next <;> exact Tracks.change ⟨rfl, hs'⟩

end

theorem walks :
    (ListView.arg b 0).withoutLast.Walks feed n
      (fun seen k s => b.Works feed (.init {}) seen k s.1 (.init s.2))
      (fun seen s => (s.1.suspend (.init s.2)).Over feed seen)
      (fun f => answer (puller f) .ended) (fun f => answer (puller f) .current)
      fun f => answer (puller f) .advance := by
  constructor
  · exact fun hs => (ended_tells h hargs hs).imp fun _ _ _ _ _ ⟨hs', hstarted, hover⟩ =>
      ⟨hs', fun he => (hover he).suspend ⟨hstarted, rfl⟩⟩
  · intro seen k s hs
    refine (ended_tells h hargs hs).bind ?_
    rintro seen' ended ⟨b', held, _⟩ - - ⟨⟨places, hb, hothers, hinit⟩, rfl, -⟩
    obtain ⟨hheld, hover⟩ :
        ((ListView.arg b 0).heldBack k).Gives feed (held, places 0) ∧ (held = none → b'.ArgOver feed seen' 0) :=
      hinit
    cases ended with
    | true => exact Tracks.congr (.fail (.runtime .pastEnd)) fun _ _ => rfl
    | false =>
      refine Tracks.known hheld (Tracks.look ?_)
      cases held with
      | none => exact Tells.fail _
      | some item => exact Tells.pure ⟨places, hb, hothers, hheld, hover⟩
  · intro seen k s hs
    refine Tracks.mapped (advance_tracks h hargs hs) ?_
    rintro seen' front _ s' _ - - ⟨rfl, hs'⟩
    exact ⟨rfl, rfl, hs'⟩

end

end Init

namespace Reverse

variable {s : Bound × Reverse Value}

theorem collect_tells (h : Pulls feed n) (hargs : b.Unpulled)
    (hs : b.Works feed (.reverse {}) seen k s.1 (.reverse s.2)) :
    Tells feed n seen s (fun f => collect (puller f)) (View.gatherArg b) fun seen' items s' =>
      b.Works feed (.reverse {}) seen' k s'.1 (.reverse s'.2) ∧ s'.2 = ⟨some items, k⟩ := by
  obtain ⟨b', items, position⟩ := s
  obtain ⟨places, hb, rfl, h0, hitems⟩ := hs
  refine Tracks.look ?_
  cases items with
  | some items => exact Tracks.given (hitems items rfl) (Tells.pure ⟨⟨places, hb, rfl, nofun, hitems⟩, rfl⟩)
  | none =>
    have hdrain := hb.tellsSome fun a a' ha hat => drainItems_tells h (hargs.getElem? ha) (by rwa [h0 rfl] at hat)
    refine Tracks.andThen hdrain.onFirst ?_
    rintro seen' items _ _ _ - hgives ⟨rfl, rfl, b'', rfl, i, hb'⟩
    refine Tracks.afterChange (Tells.pure ⟨⟨_, hb', rfl, nofun, ?_⟩, rfl⟩)
    rintro _ ⟨⟩
    exact hgives

theorem walks (h : Pulls feed n) (hargs : b.Unpulled) :
    (ListView.gathered (.gatherArg b)).Walks feed n
      (fun seen k s => b.Works feed (.reverse {}) seen k s.1 (.reverse s.2))
      (fun seen s => (s.1.suspend (.reverse s.2)).Over feed seen)
      (fun f => answer (puller f) .ended) (fun f => answer (puller f) .current)
      fun f => answer (puller f) .advance := by
  constructor
  · intro seen k s hs
    refine (collect_tells h hargs hs).bind ?_
    rintro seen' items ⟨b', _⟩ - - ⟨hs', rfl⟩
    refine Tracks.look (Tells.pure ⟨hs', fun he => .done _ _ _ ⟨items, rfl, ?_⟩⟩)
    exact List.getElem?_eq_none_iff.1 (Option.isNone_iff_eq_none.1 he)
  · intro seen k s hs
    refine (collect_tells h hargs hs).bind ?_
    rintro seen' items ⟨b', _⟩ - - ⟨hs', rfl⟩
    refine Tracks.look ?_
    dsimp only
    cases items[k]? with
    | none => exact Tells.fail _
    | some item => exact Tells.pure hs'
  · rintro seen k ⟨b', items, position⟩ ⟨places, hb, rfl, h0, hitems⟩
    exact Tells.change (f := fun s : Bound × Reverse Value => (s.1, { s.2 with position := s.2.position + 1 }))
      ⟨places, hb, rfl, h0, hitems⟩

end Reverse

end PullScript
