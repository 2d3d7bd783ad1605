import PullScript.Proofs.View.Functions

namespace PullScript

open Act

variable {σ τ α β : Type} {feed : Feed} {n : Nat} {seen : Reach} {value value' : Value} {k : Nat}

/-- Asking a value comes to asking a part of it, `P` saying which states of the part are at a place and `O`
which are over. -/
def Hosts {A : Type} {Reply : A → Type} (feed : Feed) (value : Value)
    (outer : Nat → (ask : A) → Act Value (Reply ask)) (P : Reach → Nat → σ → Prop) (O : Reach → σ → Prop)
    (inner : Nat → (ask : A) → Act σ (Reply ask)) : Prop :=
  ∀ seen k value', value.At feed seen k value' → ∃ s, ∃ rebuild : σ → Value, P seen k s ∧
    (∀ {seen' k' s'}, P seen' k' s' → value.At feed seen' k' (rebuild s')) ∧
    (∀ {seen' s'}, O seen' s' → (rebuild s').Over feed seen') ∧
    ∀ ask, Nested s value' rebuild (fun f => inner f ask) fun f => outer f ask

namespace Hosts

variable {P : Reach → Nat → σ → Prop} {O : Reach → σ → Prop}

theorem tellsPart {A : Type} {Reply : A → Type} {outer : Nat → (ask : A) → Act Value (Reply ask)}
    {inner : Nat → (ask : A) → Act σ (Reply ask)} (h : Hosts feed value outer P O inner)
    (hat : value.At feed seen k value') (ask : A) {m : View (Reply ask)} {j : Nat} {c : Reply ask → Prop}
    (hinner : ∀ {s}, P seen k s → Tells feed n seen s (fun f => inner f ask) m fun seen' x s' =>
      P seen' j s' ∧ (c x → O seen' s')) :
    Tells feed n seen value' (fun f => outer f ask) m fun seen' x v =>
      value.At feed seen' j v ∧ (c x → v.Over feed seen') := by
  obtain ⟨s, rebuild, hs, hback, hover, hinside⟩ := h _ _ _ hat
  refine Tracks.imp (Tracks.inside (hinner hs) (hinside ask)) ?_
  rintro seen' b _ _ _ - - ⟨s', rfl, rfl, rfl, hs', hO⟩
  exact ⟨rfl, rfl, hback hs', fun hx => hover (hO hx)⟩

theorem tells {A : Type} {Reply : A → Type} {outer : Nat → (ask : A) → Act Value (Reply ask)}
    {inner : Nat → (ask : A) → Act σ (Reply ask)} (h : Hosts feed value outer P O inner)
    (hat : value.At feed seen k value') (ask : A) {m : View (Reply ask)} {j : Nat}
    (hinner : ∀ {s}, P seen k s → Tells feed n seen s (fun f => inner f ask) m fun seen' _ s' => P seen' j s') :
    Tells feed n seen value' (fun f => outer f ask) m fun seen' _ v => value.At feed seen' j v :=
  (h.tellsPart hat ask (c := fun _ => False) fun hs =>
    (hinner hs).imp fun _ _ _ _ _ hs' => ⟨hs', False.elim⟩).imp fun _ _ _ _ _ hv => hv.1

theorem walks {inner : Nat → (ask : ListAsk) → Act σ ask.Reply} {l : ListView}
    (h : Hosts feed value (fun f => answerList (puller f)) P O inner)
    (hwalks : l.Walks feed n P O (fun f => inner f .ended) (fun f => inner f .current) fun f => inner f .advance) :
    l.Walks feed n (fun seen k v => value.At feed seen k v) (fun seen v => v.Over feed seen)
      (fun f => answerList (puller f) .ended) (fun f => answerList (puller f) .current)
      fun f => answerList (puller f) .advance where
  endedOver hat := h.tellsPart hat .ended hwalks.endedOver
  current hat := h.tells hat .current hwalks.current
  advance hat := h.tells hat .advance hwalks.advance

variable {inner : Nat → (ask : TextAsk) → Act σ ask.Reply} {t : TextView}

theorem streams (h : Hosts feed value (fun f => answerText (puller f)) P O inner)
    (hstreams : t.Streams feed n P O (fun f => inner f .ended) fun f => inner f .stream) :
    t.Streams feed n (fun seen i v => value.At feed seen i v) (fun seen v => v.Over feed seen)
      (fun f => answerText (puller f) .ended) fun f => answerText (puller f) .stream where
  endedOver hat := h.tellsPart hat .ended hstreams.endedOver
  stream hat := by
    obtain ⟨s, rebuild, hs, hback, -, hinside⟩ := h _ _ _ hat
    refine ((hstreams.stream hs).inside (hinside .stream)).imp ?_
    rintro seen' chunk _ _ bytes - - ⟨s', rfl, hstreamed⟩
    obtain ⟨j, hs', hpassed⟩ := TextView.streamed_iff.1 hstreamed
    exact TextView.streamed_iff.2 ⟨j, hback hs', hpassed⟩

theorem drain (h : Hosts feed value (fun f => answerText (puller f)) P O inner) {m : View Bytes}
    (hdrain : ∀ {s}, P seen 0 s → Tracks feed n seen s (fun f => inner f .drain) m fun seen' all _ s' bytes =>
      bytes = all ∧ ∃ i, P seen' i s') (hat : value.At feed seen 0 value') :
    Tracks feed n seen value' (fun f => answerText (puller f) .drain) m fun seen' all _ v bytes =>
      bytes = all ∧ ∃ i, value.At feed seen' i v := by
  obtain ⟨s, rebuild, hs, hback, -, hinside⟩ := h _ _ _ hat
  refine ((hdrain hs).inside (hinside .drain)).imp ?_
  rintro seen' all _ _ bytes - - ⟨s', rfl, hbytes, i, hs'⟩
  exact ⟨hbytes, i, hback hs'⟩

end Hosts

variable {b b' : Bound} {task : Task Value}

theorem Bound.At.suspend {places : Nat → Nat} {task' : Task Value} (hb : b.At feed seen places b')
    (htask : Task.At feed seen b b'.args places k task task') :
    (b.suspend task).At feed seen k (b'.suspend task') := by
  obtain ⟨name, ty, args⟩ := b
  obtain ⟨_, _, args'⟩ := b'
  obtain ⟨rfl, rfl, hlength, hargs⟩ := hb
  exact .suspended hlength hargs htask

def Task.IsSimple : Task Value → Prop
  | .pick .. | .join _ => False
  | _ => True

theorem Value.At.exists_task (hat : (b.suspend task).At feed seen k value') (hsimple : task.IsSimple) :
    ∃ b' places task', value' = b'.suspend task' ∧ b.At feed seen places b' ∧
      Task.At feed seen b b'.args places k task task' := by
  cases hat with
  | @suspended _ _ _ args' _ _ _ _ hlength hargs htask =>
    exact ⟨⟨_, _, args'⟩, _, _, rfl, ⟨rfl, rfl, hlength, hargs⟩, htask⟩
  | picked => exact hsimple.elim
  | joining => exact hsimple.elim

section Tasks

variable {A : Type} {Reply : A → Type} {outer : Nat → (ask : A) → Act Value (Reply ask)}

theorem hosts_state [Inhabited τ] {inner : Nat → (ask : A) → Act (Bound × τ) (Reply ask)} (wrap : τ → Task Value)
    {P : Reach → Nat → Bound × τ → Prop}
    (hat : ∀ {seen k value'}, (b.suspend task).At feed seen k value' → ∃ b' state,
      value' = b'.suspend (wrap state) ∧ P seen k (b', state))
    (hback : ∀ {seen k b' state}, P seen k (b', state) →
      (b.suspend task).At feed seen k (b'.suspend (wrap state)))
    (hrun : ∀ f ask b' state w, outer f ask (b'.suspend (wrap state), w) =
      onTask b' state wrap (inner f ask) (b'.suspend (wrap state), w)) :
    Hosts feed (b.suspend task) outer P (fun seen s => (s.1.suspend (wrap s.2)).Over feed seen) inner := by
  intro seen k value' hvalue'
  obtain ⟨b', state, rfl, hs⟩ := hat hvalue'
  refine ⟨(b', state), fun s => s.1.suspend (wrap s.2), hs, fun hs' => hback hs', id, ?_⟩
  exact fun ask => .ofWithin fun f w => hrun f ask b' state w

theorem hosts_task [Inhabited τ] {inner : Nat → (ask : A) → Act (Bound × τ) (Reply ask)} (wrap : τ → Task Value)
    (hsimple : task.IsSimple)
    (hwrap : ∀ {seen args' places k task'}, Task.At feed seen b args' places k task task' →
      ∃ state, task' = wrap state)
    (hrun : ∀ f ask b' state w, outer f ask (b'.suspend (wrap state), w) =
      onTask b' state wrap (inner f ask) (b'.suspend (wrap state), w)) :
    Hosts feed (b.suspend task) outer
      (fun seen k s => b.Works feed task seen k s.1 (wrap s.2))
      (fun seen s => (s.1.suspend (wrap s.2)).Over feed seen) inner := by
  refine hosts_state wrap (fun hat => ?_) (fun ⟨_, hb, htask⟩ => hb.suspend htask) hrun
  obtain ⟨b', places, task', rfl, hb, htask⟩ := hat.exists_task hsimple
  obtain ⟨state, rfl⟩ := hwrap htask
  exact ⟨b', state, rfl, places, hb, htask⟩

theorem hosts_args {inner : Nat → (ask : A) → Act Bound (Reply ask)} (hsimple : task.IsSimple)
    (hsame : ∀ {seen args' places k task'}, Task.At feed seen b args' places k task task' → task' = task)
    (hrun : ∀ f ask b' w, outer f ask (b'.suspend task, w) =
      onArgs b' task (inner f ask) (b'.suspend task, w)) :
    Hosts feed (b.suspend task) outer
      (fun seen k b' => b.Works feed task seen k b' task)
      (fun seen b' => (b'.suspend task).Over feed seen) inner := by
  intro seen k value' hat
  obtain ⟨b', places, task', rfl, hb, htask⟩ := hat.exists_task hsimple
  obtain rfl := hsame htask
  refine ⟨b', (·.suspend task'), ⟨places, hb, htask⟩, ?_, id, ?_⟩
  · rintro seen' k' b' ⟨places', hb', htask'⟩
    exact hb'.suspend htask'
  · exact fun ask => .ofWithin fun f w => hrun f ask b' w

theorem Choice.Placed.suspend {choice : Choice} {s : Bound × Option Value}
    (hs : choice.Placed feed b seen k s) :
    (b.suspend (.pick choice none)).At feed seen k (s.1.suspend (.pick choice s.2)) := by
  obtain ⟨⟨_, _, args'⟩, item⟩ := s
  obtain ⟨places, ⟨rfl, rfl, hlength, hargs⟩, hsame, hitem⟩ := hs
  cases item with
  | none => exact .suspended hlength hargs ⟨rfl, hitem.1, hitem.2, hsame⟩
  | some item' =>
    obtain ⟨item, hgives, hat'⟩ := hitem
    exact .picked hlength hargs hsame hgives hat'

theorem Value.At.exists_placed {choice : Choice}
    (hat : (b.suspend (.pick choice none)).At feed seen k value') :
    ∃ b' item, value' = b'.suspend (.pick choice item) ∧ choice.Placed feed b seen k (b', item) := by
  cases hat with
  | suspended hlength hargs htask =>
    rename_i args' places task'
    cases task' with
    | pick choice' item =>
      cases item with
      | none =>
        obtain ⟨rfl, rfl, hplaces, hsame⟩ := htask
        exact ⟨⟨_, _, args'⟩, none, rfl, places, ⟨rfl, rfl, hlength, hargs⟩, hsame, rfl, hplaces⟩
      | some item => exact htask.elim
    | _ => exact htask.elim
  | @picked _ _ _ args' _ _ _ _ _ hlength hargs hsame hgives hat' =>
    exact ⟨⟨_, _, args'⟩, some _, rfl, _, ⟨rfl, rfl, hlength, hargs⟩, hsame, _, hgives, hat'⟩

theorem hosts_pick {inner : Nat → (ask : A) → Act (Bound × Option Value) (Reply ask)} {choice : Choice}
    (hrun : ∀ f ask b' item w, outer f ask (b'.suspend (.pick choice item), w) =
      onTask b' item (.pick choice) (inner f ask) (b'.suspend (.pick choice item), w)) :
    Hosts feed (b.suspend (.pick choice none)) outer (Choice.Placed feed b choice)
      (fun seen s => (s.1.suspend (.pick choice s.2)).Over feed seen) inner := by
  exact hosts_state (.pick choice) Value.At.exists_placed (fun hs => hs.suspend) hrun

theorem hosts_join {inner : Nat → (ask : A) → Act (Bound × Option (Joiner Value)) (Reply ask)}
    (hrun : ∀ f ask b' joiner w, outer f ask (b'.suspend (.join joiner), w) =
      onTask b' joiner .join (inner f ask) (b'.suspend (.join joiner), w)) :
    Hosts feed (b.suspend (.join none)) outer (Joiner.JoinPlaced feed b)
      (fun seen s => (s.1.suspend (.join s.2)).Over feed seen) inner := by
  refine hosts_state .join ?_ ?_ hrun
  · intro seen k value' hat
    cases hat with
    | suspended hlength hargs htask =>
      rename_i args' places task'
      cases task' with
      | join joiner =>
        cases joiner with
        | none => exact ⟨⟨_, _, args'⟩, none, rfl, htask.1, places, htask.2, ⟨rfl, rfl, hlength, hargs⟩⟩
        | some joiner => exact htask.elim
      | _ => exact htask.elim
    | @joining _ _ _ args' _ _ _ _ _ _ _ _ hlength hargs hsource hseparator hplace hindex hitem hjoiner =>
      exact ⟨⟨_, _, args'⟩, some _, rfl, _, _, _, _, _, _, ⟨rfl, rfl, hlength, hargs⟩, hsource, hseparator, hplace, hindex,
        hitem, hjoiner⟩
  · rintro seen k ⟨_, _, args'⟩ (_ | joiner) hs
    · obtain ⟨rfl, places, hplaces, ⟨rfl, rfl, hlength, hargs⟩⟩ := hs
      exact .suspended hlength hargs ⟨rfl, hplaces⟩
    · obtain ⟨places, source, separator, place, text, p, ⟨rfl, rfl, hlength, hargs⟩, hsource, hseparator, hplace, hindex,
        hitem, hjoiner⟩ := hs
      exact .joining hlength hargs hsource hseparator hplace hindex hitem hjoiner

theorem hosts_defined {name doc : String} {inner : Nat → (ask : A) → Act Value (Reply ask)}
    (hrun : ∀ f ask value' w, outer f ask (.defined name doc value', w) =
      within value' (.defined name doc) (inner f ask) (.defined name doc value', w)) :
    Hosts feed (.defined name doc value) outer (fun seen k v => value.At feed seen k v)
      (fun seen v => v.Over feed seen) inner := by
  intro seen k value' hat
  cases hat with
  | defined hat =>
    exact ⟨_, .defined name doc, hat, .defined, .defined name doc, fun ask => .ofWithin fun f w => hrun f ask _ w⟩

end Tasks

theorem hosts_text (bytes : Bytes) :
    Hosts feed (.text bytes false) (fun f => answerText (puller f)) (fun _ i (read : Bool) => i = read.toNat)
      (fun _ read => read = true) fun _ => answerLiteral bytes := by
  intro seen k value' hat
  cases hat with
  | text _ read =>
    exact ⟨read, .text bytes, rfl, fun hs' => hs' ▸ .text bytes _, fun hread => hread ▸ .text bytes,
      fun _ => .ofZoom fun _ _ => rfl⟩

theorem hosts_chunks (parts : List Bytes) :
    Hosts feed (.chunks parts 0) (fun f => answerText (puller f)) (fun _ i position => i = position ∧ position ≤ parts.length)
      (fun _ position => parts.length ≤ position) fun f => answerChunks f parts := by
  intro seen k value' hat
  cases hat with
  | chunks _ hi =>
    exact ⟨k, .chunks parts, ⟨rfl, hi⟩, fun hs' => hs'.1 ▸ .chunks parts (hs'.1 ▸ hs'.2), .chunks,
      fun _ => .ofZoom fun _ _ => rfl⟩

theorem hosts_input (tap : Nat) (primary : Bool) :
    Hosts feed (.input tap 0 primary) (fun f => answerText (puller f)) (fun seen i offset => i = offset ∧ offset ≤ seen tap)
      (AtEnd feed tap) fun f => answerInput f tap := by
  intro seen k value' hat
  cases hat with
  | input _ _ primary' hi =>
    exact ⟨k, (.input tap · primary'), ⟨rfl, hi⟩, fun hs' => hs'.1 ▸ .input tap primary primary' (hs'.1 ▸ hs'.2),
      fun ⟨hbroken, hlength, hseen⟩ => .input primary' hbroken hlength hseen,
      fun _ => .ofZoom fun _ _ => rfl⟩

theorem hosts_numberText (source : Value) :
    Hosts feed (.numberText (some source) {}) (fun f => answerText (puller f))
      (Once.Stands feed (return Bytes.ofString (Number.toText (← .ask source .number)))
        (fun seen s => ∃ source', s = some source' ∧ source.At feed seen 0 source') fun _ s => s.isSome = true)
      (fun _ s => s.2.served = true) fun f => answerNumberText (puller f) := by
  intro seen k value' hat
  cases hat with
  | numberText honce hsource' =>
    rename_i source' once
    refine ⟨(some source', once), fun s => .numberText s.1 s.2,
      ⟨honce, rfl, fun hknown => ⟨source', rfl, hsource' hknown⟩⟩, ?_, fun hserved => .numberText _ hserved,
      fun _ => .ofWithin fun _ _ => rfl⟩
    rintro seen' k' ⟨source₂, once'⟩ ⟨honce', hsome, hready⟩
    obtain ⟨source₂, rfl⟩ := Option.isSome_iff_exists.1 hsome
    refine .numberText honce' fun hknown => ?_
    obtain ⟨_, ⟨⟩, hat'⟩ := hready hknown
    exact hat'

theorem hosts_listText (source : Value) (separator : Bytes) :
    Hosts feed (.listText source ⟨separator, none, false⟩) (fun f => answerText (puller f))
      (Joiner.Placed feed source separator) (Joiner.IsOver feed) fun f => Joiner.answer (puller f) := by
  intro seen k value' hat
  cases hat with
  | listText hplace hsource' hitem hjoiner =>
    rename_i source' text joiner place p
    refine ⟨(joiner, source'), fun s => .listText s.2 s.1,
      ⟨place, text, p, hplace, hsource', hitem, hjoiner⟩, ?_, fun ⟨hsource, hitem⟩ => .listText hsource hitem,
      fun _ => .ofWithin fun _ _ => rfl⟩
    rintro seen' k' ⟨joiner', source₂⟩ ⟨place', text', p', hplace', hs'⟩
    exact .listText hplace' hs'.source hs'.item hs'.joiner

theorem hosts_encode (b : Bound) (e : Encoding) :
    Hosts feed (b.suspend (.encode e)) (fun f => answerText (puller f))
      (fun seen k b' => b.Works feed (.encode e) seen k b' (.encode e))
      (fun seen b' => (b'.suspend (.encode e)).Over feed seen) fun f => answerEncoding (puller f) e := by
  refine hosts_args trivial ?_ fun _ _ _ _ => rfl
  intro seen args' places k task' hat
  cases task' with
  | encode e' => rw [hat.1]
  | _ => exact hat.elim

theorem hosts_concat (b : Bound) (order : List Nat) :
    Hosts feed (b.suspend (.concat ⟨order, order⟩)) (fun f => answerText (puller f))
      (Concat.Placed feed b order) (fun seen s => (s.1.suspend (.concat s.2)).Over feed seen)
      fun f => Concat.answer (puller f) := by
  refine hosts_task .concat trivial ?_ fun _ _ _ _ _ => rfl
  intro seen args' places k task' hat
  cases task' with
  | concat state' => exact ⟨state', rfl⟩
  | _ => exact hat.elim

theorem hosts_render (b : Bound) (r : Rendering) :
    Hosts feed (b.suspend (.render r {})) (fun f => answerText (puller f))
      (Once.Stands feed (r.view b)
        (fun seen b' => ∃ places, b.At feed seen places b' ∧ ∀ i, places i = 0)
        fun seen b' => ∃ places, b.At feed seen places b')
      (fun seen s => (s.1.suspend (.render r s.2)).Over feed seen)
      fun f => Once.answer (r.run (puller f)) (return none) := by
  refine hosts_state (.render r) ?_ ?_ fun _ _ _ _ _ => rfl
  · intro seen k value' hat
    obtain ⟨b', places, task', rfl, hb, htask⟩ := hat.exists_task trivial
    cases task' with
    | render r' once =>
      obtain ⟨rfl, honce, hplaces⟩ := htask
      exact ⟨b', once, rfl, honce, ⟨places, hb⟩, fun hknown => ⟨places, hb, hplaces hknown⟩⟩
    | _ => exact htask.elim
  · rintro seen k b' once ⟨honce, ⟨places, hb⟩, hready⟩
    cases hknown : once.known with
    | none =>
      obtain ⟨places, hb, hplaces⟩ := hready hknown
      exact hb.suspend ⟨rfl, honce, fun _ => hplaces⟩
    | some known => exact hb.suspend ⟨rfl, honce, fun hnone => by simp [hknown] at hnone⟩

structure TextTold (feed : Feed) (n : Nat) (value : Value) : Prop where
  streams : (TextView.ofValue feed value).Streams feed n (fun seen i v => value.At feed seen i v)
    (fun seen v => v.Over feed seen) (fun f => answerText (puller f) .ended) fun f => answerText (puller f) .stream
  drain : ∀ {seen value'}, value.At feed seen 0 value' →
    Tracks feed n seen value' (fun f => answerText (puller f) .drain) (View.wholeOf feed value)
      fun seen' all _ v bytes => bytes = all ∧ ∃ i, value.At feed seen' i v

theorem Hosts.told {P : Reach → Nat → σ → Prop} {O : Reach → σ → Prop}
    {inner : Nat → (ask : TextAsk) → Act σ ask.Reply} (h : Hosts feed value (fun f => answerText (puller f)) P O inner)
    (hanswers : (TextView.ofValue feed value).Answers feed n P O inner)
    (hwhole : View.wholeOf feed value = (TextView.ofValue feed value).whole) : TextTold feed n value where
  streams := h.streams hanswers.streams
  drain hat := by
    rw [hwhole]
    exact h.drain hanswers.drain hat

section

variable (h : Pulls feed n)
include h

theorem numberText_told {source : Value} (hsource : source.Unpulled) :
    TextTold feed n (.numberText (some source) {}) := by
  have hproduce {seen : Reach} {s : Option Value} (hs : ∃ source', s = some source' ∧ source.At feed seen 0 source') :
      Tells feed n seen s (fun f => numberBytes (puller f))
        (do return Bytes.ofString (Number.toText (← .ask source .number))) fun _ _ s' => s'.isSome = true := by
    obtain ⟨source', rfl, hat⟩ := hs
    have hnumber : Tells feed n seen (some source') (fun f => within source' some (puller f).number) _ _ :=
      (h.number hsource hat).within
    refine Tracks.look (hnumber.bind ?_)
    rintro seen' x _ - - ⟨source'', rfl, -⟩
    exact Tells.pure rfl
  exact (hosts_numberText source).told (Once.answers hproduce _) rfl

theorem render_told (hargs : b.Unpulled) (r : Rendering) :
    TextTold feed n (b.suspend (.render r {})) := by
  have hproduce {seen : Reach} {b' : Bound} (hb : ∃ places, b.At feed seen places b' ∧ ∀ i, places i = 0) :
      Tells feed n seen b' (fun f => r.run (puller f)) (r.view b) fun seen' _ b'' =>
        ∃ places, b.At feed seen' places b'' := by
    obtain ⟨places, hb, hplaces⟩ := hb
    exact Rendering.run_tells h hargs hb hplaces r
  exact (hosts_render b r).told ((Once.answers hproduce _).imp fun _ _ hserved => .done _ _ _ hserved) rfl

theorem pick_told (hargs : b.Unpulled) (hkind : b.ty.kind ≠ .arrow) (choice : Choice) :
    TextTold feed n (b.suspend (.pick choice none)) := by
  have hosts : Hosts feed (b.suspend (.pick choice none)) (fun f => answerText (puller f))
      (Choice.Placed feed b choice) _ fun f => answerChosenText (puller f) choice :=
    hosts_pick fun _ _ _ _ _ => rfl
  have hstreams := Choice.streams h hargs hkind choice
  refine ⟨hosts.streams hstreams, fun hat => ?_⟩
  exact hosts.drain (fun hs => Choice.drain_tracks h hargs hkind hs) hat

theorem suspended_told (hargs : b.Unpulled) (htask : task.Unbegun) (hkind : task.kind b.ty = .str) :
    TextTold feed n (b.suspend task) := by
  cases task with
  | render r once =>
    obtain rfl := htask
    exact render_told h hargs r
  | encode e => exact (hosts_encode b e).told (answerEncoding_answers h hargs e) rfl
  | concat state =>
    obtain ⟨order, rest⟩ := state
    obtain rfl : rest = order := htask
    exact (hosts_concat b rest).told (Concat.answers h hargs rest) rfl
  | join joiner =>
    obtain rfl := htask
    exact Hosts.told (hosts_join fun _ _ _ _ _ => rfl) (Joiner.answerJoin_answers h hargs) rfl
  | pick choice item =>
    obtain rfl := htask
    refine pick_told h hargs (fun harrow => ?_) choice
    simp [Task.kind, harrow] at hkind
  | _ => cases hkind

theorem answerText_told (hvalue : value.Unpulled) (hkind : value.kind = .str) :
    TextTold feed n value := by
  cases value with
  | text bytes read =>
    obtain rfl := hvalue
    exact (hosts_text bytes).told (answerLiteral_answers bytes) rfl
  | chunks parts position =>
    obtain rfl := hvalue
    exact (hosts_chunks parts).told (answerChunks_answers parts) rfl
  | input tap offset primary =>
    obtain rfl := hvalue
    exact (hosts_input tap primary).told (answerInput_answers tap) rfl
  | numberText source once =>
    obtain ⟨hsource, rfl⟩ := hvalue
    cases source with
    | none => exact hsource.elim
    | some source => exact numberText_told h hsource
  | listText source joiner =>
    obtain ⟨separator, _, _⟩ := joiner
    obtain ⟨hsource, rfl, rfl⟩ := hvalue
    exact (hosts_listText source separator).told (Joiner.answers h hsource separator) rfl
  | defined name doc value =>
    have hosts : Hosts feed (.defined name doc value) (fun f => answerText (puller f)) _ _
        fun f ask => (puller f).pull (.text ask) := hosts_defined fun _ _ _ _ => rfl
    exact ⟨hosts.streams (h.text (show value.Unpulled from hvalue)), hosts.drain (h.drain (show value.Unpulled from hvalue))⟩
  | suspended name ty args task => exact suspended_told (b := ⟨name, ty, args⟩) h hvalue.1 hvalue.2 hkind
  | _ => cases hkind

end

def ListTold (feed : Feed) (n : Nat) (value : Value) : Prop :=
  (ListView.ofValue value).Walks feed n (fun seen k v => value.At feed seen k v) (fun seen v => v.Over feed seen)
    (fun f => answerList (puller f) .ended) (fun f => answerList (puller f) .current)
    fun f => answerList (puller f) .advance

theorem task_listTold [Inhabited τ] (wrap : τ → Task Value) (inner : Nat → (ask : ListAsk) → Act (Bound × τ) ask.Reply)
    (hsimple : task.IsSimple)
    (hwrap : ∀ {seen args' places k task'}, Task.At feed seen b args' places k task task' →
      ∃ state, task' = wrap state)
    (hrun : ∀ f ask b' state w, answerList (puller f) ask (b'.suspend (wrap state), w) =
      onTask b' state wrap (inner f ask) (b'.suspend (wrap state), w))
    (hwalks : (ListView.ofValue (b.suspend task)).Walks feed n
      (fun seen k s => b.Works feed task seen k s.1 (wrap s.2))
      (fun seen s => (s.1.suspend (wrap s.2)).Over feed seen)
      (fun f => inner f .ended) (fun f => inner f .current) fun f => inner f .advance) :
    ListTold feed n (b.suspend task) :=
  (hosts_task wrap hsimple hwrap hrun).walks hwalks

theorem args_listTold (inner : Nat → (ask : ListAsk) → Act Bound ask.Reply) (hsimple : task.IsSimple)
    (hsame : ∀ {seen args' places k task'}, Task.At feed seen b args' places k task task' → task' = task)
    (hrun : ∀ f ask b' w, answerList (puller f) ask (b'.suspend task, w) =
      onArgs b' task (inner f ask) (b'.suspend task, w))
    (hwalks : (ListView.ofValue (b.suspend task)).Walks feed n
      (fun seen k b' => b.Works feed task seen k b' task)
      (fun seen b' => (b'.suspend task).Over feed seen) (fun f => inner f .ended) (fun f => inner f .current) fun f => inner f .advance) :
    ListTold feed n (b.suspend task) :=
  (hosts_args hsimple hsame hrun).walks hwalks

theorem pick_listTold (h : Pulls feed n) (hargs : b.Unpulled) (hkind : b.ty.kind ≠ .arrow) (choice : Choice) :
    ListTold feed n (b.suspend (.pick choice none)) := by
  have hosts : Hosts feed (b.suspend (.pick choice none)) (fun f => answerList (puller f))
      (Choice.Placed feed b choice) _ fun f ask => choice.onItem (puller f) ((puller f).pull (.list ask)) :=
    hosts_pick fun _ _ _ _ _ => rfl
  have hwalks := Choice.walks h hargs hkind choice
  exact hosts.walks hwalks

theorem suspended_listTold (h : Pulls feed n) (hargs : b.Unpulled) (htask : task.Unbegun)
    (hkind : task.kind b.ty = .lst) : ListTold feed n (b.suspend task) := by
  cases task with
  | bytes ahead =>
    obtain rfl := htask
    refine task_listTold .bytes (fun f => ByteList.answer (puller f)) trivial (fun {_ _ _ _ task'} hat => ?_) (fun _ _ _ _ _ => rfl)
      (ByteList.walks h hargs)
    cases task' <;> first | exact ⟨_, rfl⟩ | exact hat.elim
  | units unit cutter =>
    obtain rfl := htask
    refine task_listTold (.units unit) (fun f => answerUnits (puller f) unit) trivial (fun {_ _ _ _ task'} hat => ?_) (fun _ _ _ _ _ => rfl)
      (answerUnits_walks h hargs unit)
    cases task' with
    | units unit' cutter' => exact ⟨cutter', by rw [hat.1]⟩
    | _ => exact hat.elim
  | split splitter =>
    obtain rfl := htask
    refine task_listTold .split (fun f => Splitter.answer (puller f)) trivial (fun {_ _ _ _ task'} hat => ?_) (fun _ _ _ _ _ => rfl)
      (Splitter.walks h hargs)
    cases task' <;> first | exact ⟨_, rfl⟩ | exact hat.elim
  | map =>
    refine args_listTold (fun f => answerMap (puller f)) trivial (fun {_ _ _ _ task'} hat => ?_) (fun _ _ _ _ => rfl)
      (answerMap_walks h hargs)
    cases task' <;> first | rfl | exact hat.elim
  | «repeat» =>
    refine args_listTold (fun f => answerRepeat (puller f)) trivial (fun {_ _ _ _ task'} hat => ?_) (fun _ _ _ _ => rfl)
      answerRepeat_walks
    cases task' <;> first | rfl | exact hat.elim
  | zipWith =>
    refine args_listTold (fun f => ZipWith.answer (puller f)) trivial (fun {_ _ _ _ task'} hat => ?_) (fun _ _ _ _ => rfl)
      (ZipWith.walks h hargs)
    cases task' <;> first | rfl | exact hat.elim
  | take state =>
    obtain rfl := htask
    refine task_listTold .take (fun f => Take.answer (puller f)) trivial (fun {_ _ _ _ task'} hat => ?_) (fun _ _ _ _ _ => rfl)
      (Take.walks h hargs)
    cases task' <;> first | exact ⟨_, rfl⟩ | exact hat.elim
  | drop skipped =>
    obtain rfl := htask
    refine task_listTold .drop (fun f => Drop.answer (puller f)) trivial (fun {_ _ _ _ task'} hat => ?_) (fun _ _ _ _ _ => rfl)
      (Drop.walks h hargs)
    cases task' <;> first | exact ⟨_, rfl⟩ | exact hat.elim
  | tail started =>
    obtain rfl := htask
    refine task_listTold .tail (fun f => Tail.answer (puller f)) trivial (fun {_ _ _ _ task'} hat => ?_) (fun _ _ _ _ _ => rfl)
      (Tail.walks h hargs)
    cases task' <;> first | exact ⟨_, rfl⟩ | exact hat.elim
  | init state =>
    obtain rfl := htask
    refine task_listTold .init (fun f => Init.answer (puller f)) trivial (fun {_ _ _ _ task'} hat => ?_) (fun _ _ _ _ _ => rfl)
      (Init.walks h hargs)
    cases task' <;> first | exact ⟨_, rfl⟩ | exact hat.elim
  | reverse state =>
    obtain rfl := htask
    refine task_listTold .reverse (fun f => Reverse.answer (puller f)) trivial (fun {_ _ _ _ task'} hat => ?_) (fun _ _ _ _ _ => rfl)
      (Reverse.walks h hargs)
    cases task' <;> first | exact ⟨_, rfl⟩ | exact hat.elim
  | pick choice item =>
    obtain rfl := htask
    refine pick_listTold h hargs (fun harrow => ?_) choice
    simp [Task.kind, harrow] at hkind
  | _ => cases hkind

theorem list_listTold (elements : List Ty) (items : List Value) : ListTold feed n (.list elements items 0) := by
  have hask {seen : Reach} {k j : Nat} {value' : Value} {ask : ListAsk} {m : View ask.Reply} {c : ask.Reply → Prop}
      (hat : (Value.list elements items 0).At feed seen k value')
      (hinner : ∀ {items'}, Value.copyAll items' = Value.copyAll items →
        Tells feed n seen (min k items.length) (fun _ => answerItems items' ask) m fun _ x position =>
          position = min j items.length ∧ (c x → items'.length ≤ position)) :
      Tells feed n seen value' (fun f => answerList (puller f) ask) m fun seen' x v =>
        (Value.list elements items 0).At feed seen' j v ∧ (c x → v.Over feed seen') := by
    cases hat with
    | list _ _ hitems =>
      rename_i items'
      refine Tracks.look ((Tracks.zoom (hinner hitems)).imp ?_)
      rintro seen' x _ _ _ - - ⟨_, rfl, rfl, rfl, rfl, hover⟩
      exact ⟨rfl, rfl, .list elements j hitems, fun hx => .list elements (hover hx)⟩
  constructor
  · exact fun hat => hask hat fun hitems => (answerItems_walks hitems).endedOver rfl
  · exact fun hat => (hask (c := fun _ => False) hat fun hitems => ((answerItems_walks hitems).current rfl).imp
      fun _ _ _ _ _ hs' => ⟨hs', False.elim⟩).imp fun _ _ _ _ _ hv => hv.1
  · exact fun hat => (hask (c := fun _ => False) hat fun hitems => ((answerItems_walks hitems).advance rfl).imp
      fun _ _ _ _ _ hs' => ⟨hs', False.elim⟩).imp fun _ _ _ _ _ hv => hv.1

section

variable (h : Pulls feed n)
include h

theorem clusters_listTold {source : Value} (hsource : source.Unpulled) :
    ListTold feed n (.clusters source {}) := by
  -- The type of the list, which a failure names, does not bear on these answers.
  have hask {seen : Reach} {k j : Nat} {value' : Value} {ask : ListAsk} {m : View ask.Reply} {c : ask.Reply → Prop}
      (hat : (Value.clusters source {}).At feed seen k value')
      (hinner : ∀ ty s, Cutter.Placed feed source .grapheme seen k s →
        Tells feed n seen s (fun f => Cutter.answer (puller f) ty .grapheme ask) m fun seen' x s' =>
          Cutter.Placed feed source .grapheme seen' j s' ∧ (c x → s'.1.IsOver)) :
      Tells feed n seen value' (fun f => answerList (puller f) ask) m fun seen' x v =>
        (Value.clusters source {}).At feed seen' j v ∧ (c x → v.Over feed seen') := by
    cases hat with
    | clusters hat hcutter =>
      rename_i source' cutter i
      have hwithin : Tells feed n seen (Value.clusters source' cutter)
          (fun f => within (cutter, source') (fun s => Value.clusters s.2 s.1)
            (Cutter.answer (puller f) (Value.clustersOf source').ty .grapheme ask)) m _ :=
        (hinner (Value.clustersOf source').ty (cutter, source') ⟨i, hat, hcutter⟩).within
      refine Tells.look (hwithin.imp ?_)
      rintro seen' x _ - - ⟨⟨cutter', source''⟩, rfl, ⟨i', hat', hcutter'⟩, hover⟩
      exact ⟨.clusters hat' hcutter', fun hx => .clusters source'' (hover hx).1 (hover hx).2⟩
  constructor
  · exact fun hat => hask hat fun ty _ hs => (Cutter.walks h hsource ty .grapheme).endedOver hs
  · exact fun hat => (hask (c := fun _ => False) hat fun ty _ hs => ((Cutter.walks h hsource ty .grapheme).current hs).imp
      fun _ _ _ _ _ hs' => ⟨hs', False.elim⟩).imp fun _ _ _ _ _ hv => hv.1
  · exact fun hat => (hask (c := fun _ => False) hat fun ty _ hs => ((Cutter.walks h hsource ty .grapheme).advance hs).imp
      fun _ _ _ _ _ hs' => ⟨hs', False.elim⟩).imp fun _ _ _ _ _ hv => hv.1

theorem answerList_told (hvalue : value.Unpulled) (hkind : value.kind = .lst) :
    ListTold feed n value := by
  cases value with
  | list elements items position =>
    obtain ⟨-, rfl⟩ := hvalue
    exact list_listTold elements items
  | recast ty source position =>
    obtain ⟨hsource, rfl⟩ := hvalue
    refine Hosts.walks ?_ (answerRecast_walks h hsource ty)
    intro seen k value' hat
    cases hat with
    | recast hat hstep =>
      refine ⟨(_, _), fun s => .recast ty s.1 s.2, ⟨hat, hstep⟩, ?_, .recast ty _,
        fun _ => .ofWithin fun _ _ => rfl⟩
      rintro seen' k' ⟨source', position⟩ ⟨hat', hstep'⟩
      exact .recast hat' hstep'
  | clusters source cutter =>
    obtain ⟨hsource, rfl⟩ := hvalue
    exact clusters_listTold h hsource
  | defined name doc value =>
    have hosts : Hosts feed (.defined name doc value) (fun f => answerList (puller f)) _ _
        fun f ask => (puller f).pull (.list ask) := hosts_defined fun _ _ _ _ => rfl
    exact hosts.walks (h.list (show value.Unpulled from hvalue))
  | suspended name ty args task => exact suspended_listTold (b := ⟨name, ty, args⟩) h hvalue.1 hvalue.2 hkind
  | _ => cases hkind

theorem suspended_number_tells (hargs : b.Unpulled) (htask : task.Unbegun)
    (hkind : task.kind b.ty = .num) (hat : (b.suspend task).At feed seen 0 value') :
    Tells feed n seen value' (fun f => answerNumber (puller f)) (View.numberOf (b.suspend task)) fun seen' _ v =>
      (b.suspend task).At feed seen' 0 v := by
  cases task with
  | calculate c known =>
    obtain rfl := htask
    obtain ⟨b', places, task', rfl, hb, htask⟩ := hat.exists_task trivial
    cases task' with
    | calculate c' known =>
      obtain ⟨rfl, -, hplaces, hknown⟩ := htask
      have hcalculated : Tells feed n seen (b'.suspend (.calculate c' known))
          (fun f => onTask b' known (.calculate c') (calculated (puller f) c')) _ _ :=
        (calculated_tells h hargs c' hb hplaces hknown).within
      refine Tells.look (hcalculated.imp ?_)
      rintro seen' x _ - hx ⟨⟨b', _⟩, rfl, rfl, places', hb'⟩
      refine hb'.suspend ⟨rfl, rfl, nofun, ?_⟩
      rintro _ ⟨⟩
      exact hx
    | _ => exact htask.elim
  | pick choice item =>
    obtain rfl := htask
    have hnot : b.ty.kind ≠ .arrow := fun harrow => by simp [Task.kind, harrow] at hkind
    have hosts : Hosts feed (b.suspend (.pick choice none)) (fun f (_ : Unit) => answerNumber (puller f))
        (Choice.Placed feed b choice) _ fun f _ => choice.onItem (puller f) (puller f).number :=
      hosts_pick fun _ _ _ _ _ => rfl
    exact hosts.tells hat () fun hs => Choice.onItem_tells (m := fun item => .ask item .number) h hargs hnot hs
      fun hitem hat => h.number hitem hat
  | _ => cases hkind

theorem answerNumber_tells (hvalue : value.Unpulled) (hkind : value.kind = .num) (hat : value.At feed seen 0 value') :
    Tells feed n seen value' (fun f => answerNumber (puller f)) (View.numberOf value) fun seen' _ v =>
      value.At feed seen' 0 v := by
  cases value with
  | number x =>
    cases hat
    exact Tells.look (Tells.pure (.number x))
  | defined name doc value =>
    cases hat with
    | defined hat =>
      refine Tells.look ((h.number (show value.Unpulled from hvalue) hat).within.imp ?_)
      rintro seen' x _ - - ⟨v, rfl, hv⟩
      exact .defined hv
  | suspended name ty args task => exact suspended_number_tells (b := ⟨name, ty, args⟩) h hvalue.1 hvalue.2 hkind hat
  | metered => exact hvalue.elim
  | _ => cases hkind

theorem suspended_apply_tells (hargs : b.Unpulled) (htask : task.Unbegun) (hkind : task.kind b.ty = .fn)
    {x : Value} (hx : x.Unpulled) (hat : (b.suspend task).At feed seen 0 value') :
    Tells feed n seen value' (fun f => answerApply (puller f) x) (View.appliedTo x (b.suspend task)) fun seen' _ v =>
      (b.suspend task).At feed seen' 0 v := by
  cases task with
  | const =>
    have hosts : Hosts feed (b.suspend .const) (fun f (_ : Unit) => answerApply (puller f) x)
        (fun seen k b' => b.Works feed .const seen k b' .const) (fun seen b' => (b'.suspend .const).Over feed seen)
        fun f _ => do return (← Bound.arg 0).copy := by
      refine hosts_args trivial (fun {_ _ _ _ task'} hat => ?_) fun _ _ _ _ => rfl
      cases task' <;> first | rfl | exact hat.elim
    refine hosts.tells hat () ?_
    rintro b' ⟨places, hb, -, hsame⟩
    refine (Bound.arg_tracks hb.name_eq (Value.map_copy_of_copyAll_eq hsame 0)).bind ?_
    rintro seen' y y' _ _ hfurther - ⟨rfl, rfl, hcopy⟩
    rw [hcopy]
    exact Tells.pure ⟨places, hb.mono hfurther, rfl, hsame⟩
  | flip =>
    have hosts : Hosts feed (b.suspend .flip) (fun f (_ : Unit) => answerApply (puller f) x)
        (fun seen k b' => b.Works feed .flip seen k b' .flip) (fun seen b' => (b'.suspend .flip).Over feed seen)
        fun f _ => applyFlipped (puller f) x := by
      refine hosts_args trivial (fun {_ _ _ _ task'} hat => ?_) fun _ _ _ _ => rfl
      cases task' <;> first | rfl | exact hat.elim
    exact hosts.tells hat () fun hs => applyFlipped_tells h hargs hx hs
  | pick choice item =>
    obtain rfl := htask
    have harrow : b.ty.kind = .arrow := by
      cases hty : b.ty.kind <;> simp [Task.kind, hty] at hkind ⊢
    have hosts : Hosts feed (b.suspend (.pick choice none)) (fun f (_ : Unit) => answerApply (puller f) x)
        (Choice.Placed feed b choice) _ fun f _ => choice.apply (puller f) x :=
      hosts_pick fun _ _ _ _ _ => rfl
    exact hosts.tells hat () fun hs => Choice.apply_tells h hargs hx harrow hs
  | _ => cases hkind

theorem answerApply_tells (hvalue : value.Unpulled) (hkind : value.kind = .fn) {x : Value}
    (hx : x.Unpulled) (hat : value.At feed seen 0 value') :
    Tells feed n seen value' (fun f => answerApply (puller f) x) (View.appliedTo x value) fun seen' _ v =>
      value.At feed seen' 0 v := by
  cases value with
  | chain ty stages =>
    cases hat with
    | chain hlength hstages =>
      rename_i stages'
      have happly : Tells feed n seen (Value.chain ty stages')
          (fun f => within stages' (.chain ty) (applyStages (puller f) x stages')) (View.through stages x) _ :=
        (applyStages_tells h hvalue ⟨hlength, hstages⟩ hx).within
      refine Tells.look (happly.imp ?_)
      rintro seen' y _ - - ⟨stages'', rfl, hlength', hstages'⟩
      exact .chain hlength' hstages'
  | curried builtin ty args =>
    cases hat with
    | curried _ _ hargs =>
      refine Tells.look ((applyCurried_tells h builtin ty hargs hvalue hx).imp ?_)
      rintro seen' y _ - - rfl
      exact .curried builtin ty hargs
  | defined name doc value =>
    cases hat with
    | defined hat =>
      refine Tells.look ((h.apply (show value.Unpulled from hvalue) hx hat).within.imp ?_)
      rintro seen' x _ - - ⟨v, rfl, hv⟩
      exact .defined hv
  | output => exact hvalue.elim
  | suspended name ty args task => exact suspended_apply_tells (b := ⟨name, ty, args⟩) h hvalue.1 hvalue.2 hkind hx hat
  | _ => cases hkind

theorem takeNumber_tells (hvalue : value.Unpulled) (hkind : value.kind = .str) (error : Error) :
    Tells feed n seen value (fun f => answerText (puller f) .takeNumber >>= orFail error)
      (.blaming error (View.takenFrom value)) fun _ _ _ => True := by
  have hnever {value : Value} (hview : View.takenFrom value = .fail (.runtime .numberTaken))
      (hrun : ∀ f w, (answerText (puller f) .takeNumber >>= orFail error) (value, w) =
        .error (.failed error) (value, w)) :
      Tells feed n seen value (fun f => answerText (puller f) .takeNumber >>= orFail error)
        (.blaming error (View.takenFrom value)) fun _ _ _ => True := by
    rw [hview]
    exact .blaming (.fail (.runtime .numberTaken)) hrun
  cases value with
  | numberText source once =>
    have hrun (f : Nat) (w : World) :
        (answerText (puller f) .takeNumber >>= orFail error) (Value.numberText source once, w) =
          orFail error (source.bind Value.asNumeric?) (Value.numberText none once, w) := rfl
    rw [View.takenFrom]
    cases hnumeric : source.bind Value.asNumeric? with
    | none =>
      refine .ofFail (View.fails_blaming_iff.2 ⟨rfl, _, View.fails_fail_iff.2 rfl⟩) fun w _ =>
        ⟨(.numberText none once, w), fun f => ?_⟩
      rw [hrun, hnumeric]
      rfl
    | some number =>
      refine Tracks.ofPure fun w hw => ⟨seen, number, .numberText none once, w, [], fun f => ?_, .refl hw, rfl, rfl, trivial⟩
      rw [hrun, hnumeric]
      rfl
  | defined name doc value =>
    have htaken : Tells feed n seen (Value.defined name doc value)
        (fun f => within value (.defined name doc) (takeOrFail error f)) (.blaming error (.ask value .taken)) _ :=
      (h.taken error (show value.Unpulled from hvalue) hkind).within
    refine Tells.congr (htaken.imp fun _ _ _ _ _ _ => trivial) fun f w => ?_
    rw [takeOrFail, within_orFail]
    rfl
  | suspended name ty args task =>
    obtain ⟨hargs, htask⟩ := hvalue
    cases task with
    | pick choice item =>
      obtain rfl := htask
      have htaken : Tells feed n seen (Value.suspended name ty args (.pick choice none))
          (fun f => onTask ⟨name, ty, args⟩ none (.pick choice) (choice.takeNumber (puller f) >>= orFail error)) _ _ :=
        (Choice.takeNumber_tells (b := ⟨name, ty, args⟩) h hargs hkind error).within
      refine Tells.congr (htaken.imp fun _ _ _ _ _ _ => trivial) fun f w => ?_
      rw [onTask, within_orFail]
      rfl
    | render r once => exact hnever rfl fun _ _ => rfl
    | encode e => exact hnever rfl fun _ _ => rfl
    | concat state => exact hnever rfl fun _ _ => rfl
    | join joiner => exact hnever rfl fun _ _ => rfl
    | _ => cases hkind
  | text bytes read => exact hnever rfl fun _ _ => rfl
  | chunks parts position => exact hnever rfl fun _ _ => rfl
  | input tap offset primary => exact hnever rfl fun _ _ => rfl
  | listText source joiner => exact hnever rfl fun _ _ => rfl
  | _ => cases hkind

end

theorem Tracks.later {s : σ} {act act' : Nat → Act σ α} {m m' : View β}
    {N : Reach → β → α → σ → Bytes → Prop} (h : Tracks feed n seen s act m N)
    (hzero : ∀ w, ∃ s', act' 0 (s, w) = .error .outOfFuel s') (hsucc : ∀ f w, act' (f + 1) (s, w) = act f (s, w))
    (hview : ∀ f, m'.run (viewer feed (f + 1)) = m.run (viewer feed f)) : Tracks feed (n + 1) seen s act' m' N where
  follows hw := by
    rw [hsucc]
    refine (h.follows hw).imp_right fun ⟨x, ⟨f, hf⟩, hfits⟩ => ⟨x, ⟨f + 1, ?_⟩, hfits⟩
    rw [hview, hf]
  reaches {w _} hw hrun := by
    rw [hview] at hrun
    obtain ⟨r, hcomes, hfits⟩ := h.reaches hw hrun
    exact ⟨r, hcomes.later (hzero w) fun f => hsucc f w, hfits⟩

theorem requireFor_tells (hat : value.At feed seen k value') (ask : Ask) :
    Tells feed n seen value' (fun _ => requireFor ask)
      (View.require (value.kind = ask.kind) (.typeMismatch value.ty ask.wantedTy)) fun _ _ v => v = value' := by
  unfold View.require
  by_cases hask : value.kind = ask.kind
  · rw [if_pos hask]
    refine Tells.congr (Tells.pure rfl) fun _ w => ?_
    simp [requireFor, bind_run, hat.kind_eq, hask]
  · rw [if_neg hask]
    refine Tells.congr (Tells.fail (.typeMismatch value.ty ask.wantedTy)) fun _ w => ?_
    simp [requireFor, bind_run, hat.kind_eq, hat.ty_eq, hask]

theorem Tracks.pull {ask : Ask} {m m' : View β} {N : Reach → β → ask.Reply → Value → Bytes → Prop}
    (hat : value.At feed seen k value')
    (hview : ∀ f, m'.run (viewer feed (f + 1)) =
      (do
        .require (value.kind = ask.kind) (.typeMismatch value.ty ask.wantedTy)
        m : View β).run (viewer feed f))
    (h : ∀ {seen'}, value.At feed seen' k value' → value.kind = ask.kind →
      Tracks feed n seen' value' (fun f => answerFitting (puller f) ask) m N) :
    Tracks feed (n + 1) seen value' (fun f => PullScript.pull f ask) m' N := by
  have hanswer : Tracks feed n seen value' (fun f => answer (puller f) ask)
      (do
        .require (value.kind = ask.kind) (.typeMismatch value.ty ask.wantedTy)
        m) N := by
    refine (requireFor_tells hat ask).bind ?_
    rintro seen' ⟨⟩ _ hfurther hrequired rfl
    exact h (hat.mono hfurther) (View.gives_require_iff.1 hrequired)
  exact hanswer.later (fun w => ⟨_, rfl⟩) (fun _ _ => rfl) hview

theorem Tracks.zero {s : σ} {act : Nat → Act σ α} {m : View β} {N : Reach → β → α → σ → Bytes → Prop}
    (hact : ∀ w, act 0 (s, w) = .error .outOfFuel (s, w)) (hview : m.run (viewer feed 0) = none) :
    Tracks feed 0 seen s act m N where
  follows _ := .inl ⟨_, hact _⟩
  reaches _ hrun := by
    rw [hview] at hrun
    cases hrun

theorem View.run_ask (feed : Feed) {value : Value} (query : Query) (hkind : value.kind = query.kind) (f : Nat) :
    (View.ask value query).run (viewer feed (f + 1)) = (glanceFitting feed value query).run (viewer feed f) := by
  change (glance feed value query).run (viewer feed f) = _
  rw [glance, View.require, if_pos hkind]
  rfl

namespace TextView

theorem run_next_of_kind (hkind : value.kind = .str) (i f : Nat) :
    ((TextView.of value).next i).run (viewer feed (f + 1)) =
      ((TextView.ofValue feed value).next i).run (viewer feed f) := by
  have hended := View.run_ask feed (.textEnded i) hkind f
  have hchunk := View.run_ask feed (.chunk i) hkind f
  rw [next, View.run_bind, next, View.run_bind]
  refine congrArg₂ _ hended (congrArg _ (funext fun ended => ?_))
  cases ended with
  | true => rfl
  | false =>
    simp only [Bool.false_eq_true, if_false, View.run_bind]
    exact congrArg₂ _ hchunk rfl

theorem run_next_of (value : Value) (i f : Nat) :
    ((TextView.of value).next i).run (viewer feed (f + 1)) =
      (do
        .require (value.kind = .str) (.typeMismatch value.ty Kind.str.anyTy)
        (TextView.ofValue feed value).next i : View (Option Bytes)).run (viewer feed f) := by
  rw [View.require]
  by_cases hkind : value.kind = .str
  · rw [run_next_of_kind hkind, if_pos hkind]
    rfl
  · have hended : (View.ask value (.textEnded i)).run (viewer feed (f + 1)) =
        some (.error (.typeMismatch value.ty Kind.str.anyTy)) := by
      change (glance feed value (.textEnded i)).run (viewer feed f) = _
      rw [glance, View.require, if_neg (show value.kind ≠ (Query.textEnded i).kind from hkind)]
      rfl
    rw [if_neg hkind, next, View.run_bind]
    exact congrArg₂ _ hended rfl

theorem next_of_gives_iff {value : Value} (hkind : value.kind = .str) {i : Nat} {chunk : Option Bytes} :
    ((TextView.of value).next i).Gives feed chunk ↔ ((TextView.ofValue feed value).next i).Gives feed chunk := by
  constructor
  · rintro ⟨_ | f, hf⟩
    · cases hf
    · exact ⟨f, by rw [← run_next_of_kind hkind, hf]⟩
  · rintro ⟨f, hf⟩
    exact ⟨f + 1, by rw [run_next_of_kind hkind, hf]⟩

theorem Runs.of_ofValue {value : Value} (hkind : value.kind = .str) {i j : Nat} {bytes : Bytes}
    (h : (TextView.ofValue feed value).Runs feed i j bytes) : (TextView.of value).Runs feed i j bytes := by
  induction h with
  | refl i => exact .refl i
  | step hnext _ ih => exact .step ((next_of_gives_iff hkind).2 hnext) ih

end TextView

theorem pulls_zero (feed : Feed) : Pulls feed 0 where
  number _ _ := .zero (fun _ => rfl) rfl
  text _ := ⟨fun _ => .zero (fun _ => rfl) rfl, fun _ => .zero (fun _ => rfl) rfl⟩
  drain _ _ := .zero (fun _ => rfl) rfl
  taken _ _ _ := .zero (fun _ => rfl) rfl
  list _ := ⟨fun _ => .zero (fun _ => rfl) rfl, fun _ => .zero (fun _ => rfl) rfl, fun _ => .zero (fun _ => rfl) rfl⟩
  apply _ _ _ := .zero (fun _ => rfl) rfl

theorem pulls (feed : Feed) (n : Nat) : Pulls feed n := by
  induction n with
  | zero => exact pulls_zero feed
  | succ n h =>
    constructor
    case number =>
      intro seen value value' hvalue hat
      exact Tracks.pull hat (fun _ => rfl) fun hat hkind => answerNumber_tells h hvalue hkind hat
    case text =>
      intro value hvalue
      constructor
      · intro seen i value' hat
        exact Tracks.pull hat (fun _ => rfl) fun hat hkind =>
          (answerText_told h hvalue hkind).streams.endedOver hat
      · intro seen i value' hat
        refine Tracks.pull hat (TextView.run_next_of value i) fun hat hkind => ?_
        refine ((answerText_told h hvalue hkind).streams.stream hat).imp ?_
        rintro seen' (_ | chunk) u v bytes - - hstreamed
        · exact hstreamed
        · obtain ⟨j, hij, hruns, hv⟩ := hstreamed
          exact ⟨j, hij, hruns.of_ofValue hkind, hv⟩
    case drain =>
      intro seen value value' hvalue hat
      exact Tracks.pull hat (fun _ => rfl) fun hat hkind =>
        (answerText_told h hvalue hkind).drain hat
    case taken =>
      intro seen value error hvalue hkind
      refine (takeNumber_tells h hvalue hkind error).later (fun w => ⟨_, rfl⟩) (fun f w => ?_) fun f => ?_
      · have hrequired : requireFor (.text .takeNumber) (value, w) = .ok () (value, w) := by
          simp [requireFor, bind_run, hkind, Ask.kind]
        change ((requireFor (.text .takeNumber) >>= fun _ => answerText (puller f) .takeNumber) >>= orFail error) _ = _
        rw [bind_assoc, bind_of_ok hrequired]
      · exact congrArg (Option.map _) (View.run_ask feed .taken hkind f)
    case list =>
      intro value hvalue
      constructor
      · intro seen k value' hat
        exact Tracks.pull hat (fun _ => rfl) fun hat hkind =>
          (answerList_told h hvalue hkind).endedOver hat
      · intro seen k value' hat
        exact Tracks.pull hat (fun _ => rfl) fun hat hkind =>
          (answerList_told h hvalue hkind).current hat
      · intro seen k value' hat
        exact Tracks.pull hat (fun _ => rfl) fun hat hkind =>
          (answerList_told h hvalue hkind).advance hat
    case apply =>
      intro seen f f' x hf hx hat
      exact Tracks.pull hat (fun _ => rfl) fun hat hkind =>
        answerApply_tells h hf hkind hx hat

end PullScript
