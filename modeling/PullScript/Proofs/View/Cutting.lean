import PullScript.Proofs.View.Joining

namespace PullScript

open Act

variable {source' : Value} {size : Nat}

variable {σ : Type} {feed : Feed} {n : Nat} {seen : Reach} {b b' : Bound} {places : Nat → Nat}

theorem ListView.walks_of_fetch {α : Type} {front : Nat → View (Option α)} {item : α → Value}
    {P : Reach → Nat → σ → Prop} {O : Reach → σ → Prop} {fetch : Nat → Act σ Unit} (known : σ → Option α)
    (step : σ → σ)
    (h : ∀ {seen k s}, P seen k s → Tracks feed n seen s fetch (front k) fun seen' x _ s' bytes => bytes = [] ∧
      known s' = x ∧ P seen' k s' ∧ P seen' (k + 1) (step s') ∧ (x = none → O seen' s')) :
    (ListView.fronts front item).Walks feed n P O
      (fun f => do
        fetch f
        return (known (← look)).isNone)
      (fun f => do
        fetch f
        match known (← look) with
        | some x => return item x
        | none => fail (.runtime .pastEnd))
      fun f => do
        fetch f
        change step where
  endedOver hs := by
    refine (h hs).bind ?_
    rintro seen' x _ s' _ - - ⟨rfl, rfl, hs', -, hover⟩
    exact Tells.look (Tells.pure ⟨hs', fun he => hover (Option.isNone_iff_eq_none.1 he)⟩)
  current hs := by
    refine (h hs).bind ?_
    rintro seen' x _ s' _ - - ⟨rfl, hknown, hs', -⟩
    refine Tracks.look ?_
    rw [hknown]
    cases x with
    | none => exact .fail _
    | some x => exact Tells.pure hs'
  advance hs := by
    refine (h hs).bind ?_
    rintro seen' x _ s' _ - - ⟨rfl, rfl, -, hs', -⟩
    exact Tells.change hs'

namespace TextView

variable {unit : TextUnit} {start : Nat} {soFar : Bytes}

theorem settles_eq_true_iff :
    settles unit start soFar = true ↔ soFar.drop start ≠ [] ∧ (unit.front (soFar.drop start)).settled = true := by
  simp [settles]

section

variable (h : settles unit start soFar = true)
include h

theorem lt_of_settles : start < soFar.length := by
  have hne := (settles_eq_true_iff.1 h).1
  simpa using hne

theorem settles_append (more : Bytes) :
    settles unit start (soFar ++ more) = true := by
  have hlt := lt_of_settles h
  obtain ⟨hne, hsettled⟩ := settles_eq_true_iff.1 h
  rw [settles_eq_true_iff, List.drop_append_of_le_length (Nat.le_of_lt hlt), TextUnit.front_append hsettled]
  exact ⟨by simp [hne], hsettled⟩

theorem unitIn_append (more : Bytes) :
    unitIn unit start (soFar ++ more) = unitIn unit start soFar := by
  have hlt := lt_of_settles h
  obtain ⟨hne, hsettled⟩ := settles_eq_true_iff.1 h
  have hsize := TextUnit.size_front_le hsettled
  have hpos : 0 < (soFar.drop start).length := List.length_pos_iff.2 hne
  have hempty : (soFar.drop start).isEmpty = false := by simpa using hne
  have hempty' : (soFar.drop start ++ more).isEmpty = false := by simp [hne]
  simp only [unitIn, List.drop_append_of_le_length (Nat.le_of_lt hlt), TextUnit.front_append hsettled, hempty, hempty']
  rw [List.take_append_of_le_length (by omega)]

end

theorem length_unitIn_le {bytes : Bytes} (h : unitIn unit start soFar = some bytes) :
    start + bytes.length ≤ soFar.length := by
  unfold unitIn at h
  dsimp only at h
  split at h
  · cases h
  case isFalse hne =>
    obtain rfl := Option.some.inj h
    have hpos : 0 < (soFar.drop start).length := List.length_pos_iff.2 (by simpa using hne)
    simp only [List.length_take, List.length_drop] at *
    omega

end TextView

namespace Cutter

variable {source : Value} {unit : TextUnit} {i k : Nat}

def pendingFrom (start : Nat) (soFar : Bytes) : Cutter :=
  ⟨soFar.drop start, none, false⟩

theorem streamMore_tracks (h : Pulls feed n) (hsource : source.Unpulled) (cutter : Cutter)
    (hat : source.At feed seen i source') :
    Tracks feed n seen (cutter, source') (fun f => onPending (streamMore (puller f))) ((TextView.of source).next i)
      fun seen' chunk u s bytes => bytes = [] ∧ ∃ more, s.1 = { cutter with pending := cutter.pending ++ more } ∧
        (TextView.of source).Streamed feed (fun seen i v => source.At feed seen i v) i seen' chunk u s.2 more := by
  have hmore : Tracks feed n seen (cutter, source')
      (fun f => within (cutter.pending, source')
        (fun s => ({ cutter with pending := s.1 }, s.2)) (streamMore (puller f)))
      ((TextView.of source).next i) _ :=
    Tracks.within (Tracks.gather ((h.text hsource).stream hat))
  refine Tracks.congr (hmore.imp ?_) fun _ _ => rfl
  rintro seen' chunk u _ _ - - ⟨⟨_, source''⟩, rfl, rfl, more, rfl, hstreamed⟩
  exact ⟨rfl, more, rfl, hstreamed⟩

theorem settle_tracks (h : Pulls feed n) (hsource : source.Unpulled) {start : Nat} {soFar : Bytes}
    (hstart : start ≤ soFar.length) (hat : source.At feed seen i source')
    (hfront : (TextView.of source).Runs feed 0 i soFar) :
    Tracks feed n seen (pendingFrom start soFar, source') (fun f => settle (puller f) unit)
      ((TextView.of source).readUntil (TextView.settles unit start)) fun seen' least _ s bytes => bytes = [] ∧
        ∃ j soFar', (TextView.of source).Runs feed 0 j soFar' ∧ start ≤ soFar'.length ∧
          TextView.unitIn unit start soFar' = TextView.unitIn unit start least ∧
          source.At feed seen' j s.2 ∧ s.1 = pendingFrom start soFar' := by
  have htext := h.text hsource
  refine Tracks.imp (TextView.loop_tracks (TextView.settles unit start) (fun _ => [])
    (R := fun seen i soFar _ s => start ≤ soFar.length ∧ s.1 = pendingFrom start soFar ∧ source.At feed seen i s.2)
    (F := fun seen i soFar _ s => start ≤ soFar.length ∧ s.1 = pendingFrom start soFar ∧ source.At feed seen i s.2)
    ?_ rfl (fun _ _ => rfl) (fun _ extra hsettles => TextView.settles_append hsettles extra)
    ⟨hstart, rfl, hat⟩ hfront) ?_
  · rintro seen i soFar _ ⟨_, source'⟩ ⟨hstart, rfl, hat⟩
    have hcheck : (!(soFar.drop start).isEmpty && (unit.front (soFar.drop start)).settled) =
        TextView.settles unit start soFar := rfl
    refine Tracks.look ?_
    simp only [pendingFrom, hcheck, TextView.round]
    split
    · exact .pure ⟨rfl, hstart, rfl, hat⟩
    · refine TextView.bindEnded (Tells.onSecond (htext.ended hat)) ?_ ?_
      · rintro seen' _ - ⟨source'', rfl, hat'⟩ -
        exact .pure ⟨rfl, hstart, rfl, hat'⟩
      · rintro seen' _ - ⟨source'', rfl, hat'⟩ hgoes
        refine (streamMore_tracks h hsource _ hat').andThen ?_
        rintro seen'' chunk _ ⟨_, source₂⟩ _ - hchunk ⟨rfl, bytes, rfl, hstreamed⟩
        obtain ⟨c, j, rfl, hij, hruns, hat''⟩ := hstreamed.of_more hchunk hgoes
        refine .pure ⟨j, bytes, hij, hruns, rfl, ?_, ?_, hat''⟩
        · rw [List.length_append]
          omega
        · rw [List.drop_append_of_le_length hstart]
  · rintro seen' least _ s bytes - - ⟨j, rest, hrest, rfl, hreached, hstart', hs, hat'⟩
    refine ⟨rfl, j, _, hfront.trans hrest, hstart', ?_, hat', hs⟩
    exact hreached.eq_of_stable fun soFar extra hsettles => TextView.unitIn_append hsettles extra

theorem next_tracks (h : Pulls feed n) (hsource : source.Unpulled) {start : Nat} {soFar : Bytes}
    (hstart : start ≤ soFar.length) (hat : source.At feed seen i source')
    (hfront : (TextView.of source).Runs feed 0 i soFar) :
    Tells feed n seen (pendingFrom start soFar, source') (fun f => next (puller f) unit)
      ((TextView.of source).unitFrom unit start) fun seen' front s =>
        ∃ j soFar', (TextView.of source).Runs feed 0 j soFar' ∧ source.At feed seen' j s.2 ∧
          ∀ bytes, front = some bytes → start + bytes.length ≤ soFar'.length ∧
            s.1 = pendingFrom (start + bytes.length) soFar' := by
  refine (settle_tracks h hsource hstart hat hfront).bind ?_
  rintro seen' least _ ⟨_, source''⟩ _ - - ⟨rfl, j, soFar', hruns, hstart', hsame, hat', rfl⟩
  refine Tracks.look ?_
  rw [← hsame]
  cases hempty : (soFar'.drop start).isEmpty with
  | true =>
    simp only [pendingFrom, TextView.unitIn, hempty, if_true]
    exact Tells.pure ⟨j, soFar', hruns, hat', nofun⟩
  | false =>
    have hunit : TextView.unitIn unit start soFar' =
        some ((soFar'.drop start).take (max (unit.front (soFar'.drop start)).size 1)) := by
      simp [TextView.unitIn, hempty]
    simp only [pendingFrom, hempty, Bool.false_eq_true, if_false, hunit]
    refine Tracks.afterChange (Tells.pure ⟨j, soFar', hruns, hat', ?_⟩)
    rintro _ ⟨⟩
    refine ⟨TextView.length_unitIn_le hunit, ?_⟩
    simp only [Cutter.mk.injEq, and_true, List.length_take]
    rw [← List.drop_drop, ← List.drop_eq_drop_min]

def Fetched (feed : Feed) (source : Value) (unit : TextUnit) (k : Nat) (seen : Reach)
    (front : Option Bytes) (s : Cutter × Value) : Prop :=
  ∃ i soFar start, source.At feed seen i s.2 ∧ (TextView.of source).Runs feed 0 i soFar ∧
    ((TextView.of source).unitStart unit k).Gives feed start ∧
    ((TextView.of source).unitFrom unit start).Gives feed front ∧ s.1.current = front ∧ s.1.done = front.isNone ∧
    ∀ bytes, front = some bytes → start + bytes.length ≤ soFar.length ∧
      s.1.pending = soFar.drop (start + bytes.length)

def Placed (feed : Feed) (source : Value) (unit : TextUnit) (seen : Reach) (k : Nat)
    (s : Cutter × Value) : Prop :=
  ∃ i, source.At feed seen i s.2 ∧ s.1.At feed (.of source) unit k i

variable {front : Option Bytes} {s : Cutter × Value}

theorem Fetched.current_eq (h : Fetched feed source unit k seen front s) : s.1.current = front := by
  obtain ⟨i, soFar, start, -, -, -, -, hcurrent, -⟩ := h
  exact hcurrent

theorem Fetched.done_eq (h : Fetched feed source unit k seen front s) : s.1.done = front.isNone := by
  obtain ⟨i, soFar, start, -, -, -, -, -, hdone, -⟩ := h
  exact hdone

def IsOver (cutter : Cutter) : Prop :=
  cutter.current = none ∧ cutter.done = true

theorem Fetched.placed (h : Fetched feed source unit k seen front s) : Placed feed source unit seen k s := by
  obtain ⟨i, soFar, start, hat, hruns, hstart, hfront, hcurrent, hdone, hpending⟩ := h
  refine ⟨i, hat, soFar, start, hruns, hstart, ?_⟩
  cases front with
  | none => exact .inr (.inr ⟨hcurrent, hdone, hfront⟩)
  | some bytes => exact .inr (.inl ⟨bytes, hcurrent, hdone, hfront, hpending bytes rfl⟩)

theorem Fetched.advance (h : Fetched feed source unit k seen front s) :
    Placed feed source unit seen (k + 1) ({ s.1 with current := none }, s.2) := by
  obtain ⟨i, soFar, start, hat, hruns, hstart, hfront, hcurrent, hdone, hpending⟩ := h
  cases front with
  | none =>
    have hnext : ((TextView.of source).unitStart unit (k + 1)).Gives feed start :=
      hstart.bind (hfront.bind (.pure _))
    exact ⟨i, hat, soFar, start, hruns, hnext, .inr (.inr ⟨rfl, hdone, hfront⟩)⟩
  | some bytes =>
    have hnext : ((TextView.of source).unitStart unit (k + 1)).Gives feed (start + bytes.length) :=
      hstart.bind (hfront.bind (.pure _))
    obtain ⟨hlength, hpending⟩ := hpending bytes rfl
    exact ⟨i, hat, soFar, _, hruns, hnext, .inl ⟨rfl, hdone, hlength, hpending⟩⟩

theorem fetch_tracks (h : Pulls feed n) (hsource : source.Unpulled) (hs : Placed feed source unit seen k s) :
    Tracks feed n seen s (fun f => fetch (puller f) unit) ((TextView.of source).unitAt unit k)
      fun seen' front _ s' bytes => bytes = [] ∧ Fetched feed source unit k seen' front s' := by
  obtain ⟨⟨pending, current, done⟩, source'⟩ := s
  obtain ⟨i, hat, soFar, start, hruns, hstart, hcase⟩ := hs
  refine Tracks.known hstart (Tracks.look ?_)
  obtain ⟨rfl, rfl, hlength, rfl⟩ | ⟨bytes, rfl, rfl, hfront, hlength, rfl⟩ | ⟨rfl, rfl, hfront⟩ := hcase
  · refine Tracks.andThen (next_tracks h hsource hlength hat hruns) ?_
    rintro seen' front _ ⟨cutter, source''⟩ _ - hfront ⟨rfl, rfl, j, soFar', hruns', hat', hpending⟩
    refine Tracks.change ⟨rfl, j, soFar', start, hat', hruns', hstart, hfront, rfl, rfl, ?_⟩
    rintro bytes rfl
    obtain ⟨hlength', rfl⟩ := hpending bytes rfl
    exact ⟨hlength', rfl⟩
  · refine Tracks.given hfront (.pure ⟨rfl, i, soFar, start, hat, hruns, hstart, hfront, rfl, rfl, ?_⟩)
    rintro _ ⟨⟩
    exact ⟨hlength, rfl⟩
  · exact Tracks.given hfront (.pure ⟨rfl, i, soFar, start, hat, hruns, hstart, hfront, rfl, rfl, nofun⟩)

theorem walks (h : Pulls feed n) (hsource : source.Unpulled) (ty : Ty) (unit : TextUnit) :
    (ListView.units (.of source) unit).Walks feed n (Placed feed source unit) (fun _ s => s.1.IsOver)
      (fun f => answer (puller f) ty unit .ended) (fun f => answer (puller f) ty unit .current)
      fun f => answer (puller f) ty unit .advance := by
  have hfetch : (ListView.units (.of source) unit).Walks feed n (Placed feed source unit) (fun _ s => s.1.IsOver) _ _ _ :=
    ListView.walks_of_fetch (fun s => s.1.current) (fun s => ({ s.1 with current := none }, s.2)) fun hs =>
      (fetch_tracks h hsource hs).imp fun _ front _ _ _ _ _ ⟨hbytes, hfetched⟩ =>
        ⟨hbytes, hfetched.current_eq, hfetched.placed, hfetched.advance, fun hnone => by
          subst hnone
          exact ⟨hfetched.current_eq, hfetched.done_eq⟩⟩
  refine hfetch.congr (fun _ _ => rfl) (fun f s => ?_) fun _ _ => rfl
  simp only [answer, inFront, bind_run]
  cases fetch (puller f) unit s with
  | error => rfl
  | ok _ s' =>
    simp only [look_run]
    cases s'.1.1.current <;> rfl

end Cutter

namespace TextView

variable {k : Nat} (hmissing : b.args[k]? = none)
include hmissing

theorem next_arg_fails (i : Nat) :
    ((TextView.arg b k).next i).Fails feed (.runtime (.missingArgument b.name (k + 1))) := by
  rw [TextView.arg, TextView.after_next]
  exact (View.fails_arg hmissing).bind

theorem unitAt_arg_fails (unit : TextUnit) (place : Nat) :
    ((TextView.arg b k).unitAt unit place).Fails feed (.runtime (.missingArgument b.name (k + 1))) := by
  have hfrom (start : Nat) :
      ((TextView.arg b k).unitFrom unit start).Fails feed (.runtime (.missingArgument b.name (k + 1))) := by
    refine View.Fails.bind (View.shows_loop_iff.2 (.inr ?_))
    rw [readRound_of_not_enough (by simp [settles])]
    exact (next_arg_fails hmissing 0).bind
  cases place with
  | zero => exact (View.gives_pure_iff.2 rfl).bind (hfrom 0)
  | succ place =>
    refine View.Fails.bind ?_
    induction place with
    | zero => exact (View.gives_pure_iff.2 rfl).bind (hfrom 0).bind
    | succ place ih => exact ih.bind

end TextView

section Units

variable {unit : TextUnit} {k : Nat}

def UnitsPlaced (feed : Feed) (b : Bound) (unit : TextUnit) (seen : Reach) (k : Nat)
    (s : Bound × Cutter) : Prop :=
  b.Works feed (.units unit {}) seen k s.1 (.units unit s.2)

theorem answerUnits_tells {ask : ListAsk} {k' : Nat} {m : View ask.Reply} {R : ask.Reply → Cutter → Prop}
    {s : Bound × Cutter} (hs : UnitsPlaced feed b unit seen k s)
    (hmissing : b.args[0]? = none → m.Fails feed (.runtime (.missingArgument b.name 1)))
    (h : ∀ source c, b.args[0]? = some source → Cutter.Placed feed source unit seen k c → Tells feed n seen c
      (fun f => Cutter.answer (puller f) b.ty unit ask) m fun seen' x c' => Cutter.Placed feed source unit seen' k' c' ∧
      R x c'.1) :
    Tells feed n seen s (fun f => answerUnits (puller f) unit ask) m fun seen' x s' =>
      UnitsPlaced feed b unit seen' k' s' ∧ R x s'.2 := by
  obtain ⟨b', cutter⟩ := s
  obtain ⟨places, hb, -, hcutter⟩ := hs
  cases hk : b.args[0]? with
  | none =>
    refine .ofFail (hmissing hk) fun w _ => ⟨((b', cutter), w), fun f => ?_⟩
    rw [answerUnits, bind_run, Bound.onFirst_arg_of_none (hb.getElem?_eq_none hk), hb.name_eq]
  | some source =>
    obtain ⟨source', hk', hsource'⟩ := hb.exists_getElem? hk
    simp only [TextView.arg_eq hk] at hcutter
    have hwithin : Tells feed n seen (b', cutter)
        (fun f => within (cutter, source')
          (fun s => ({ b' with args := b'.args.set 0 s.2 }, s.1))
          (Cutter.answer (puller f) b.ty unit ask)) m _ :=
      (h source (cutter, source') hk ⟨_, hsource', hcutter⟩).within
    refine (hwithin.congr fun f w => ?_).imp ?_
    · simp only [answerUnits, bind_run, Bound.onFirst_arg_of_some hk', look_run]
      rw [show b'.ty = b.ty from hb.ty_eq]
    · rintro seen' x _ hfurther - ⟨⟨cutter', source''⟩, rfl, ⟨i, hat, hcutter'⟩, hR⟩
      refine ⟨⟨_, hb.set hfurther hk hat, rfl, ?_⟩, hR⟩
      rw [TextView.arg_eq hk, Function.update_self]
      exact hcutter'

theorem answerUnits_walks (h : Pulls feed n) (hargs : b.Unpulled) (unit : TextUnit) :
    (ListView.units (.arg b 0) unit).Walks feed n (UnitsPlaced feed b unit)
      (fun seen s => (s.1.suspend (.units unit s.2)).Over feed seen)
      (fun f => answerUnits (puller f) unit .ended) (fun f => answerUnits (puller f) unit .current)
      fun f => answerUnits (puller f) unit .advance := by
  have hmissing {α : Type} (hk : b.args[0]? = none) (k : Nat) (rest : Option Bytes → View α) :
      ((TextView.arg b 0).unitAt unit k >>= rest).Fails feed (.runtime (.missingArgument b.name 1)) :=
    (TextView.unitAt_arg_fails hk unit k).bind
  have hwalks {source : Value} (hk : b.args[0]? = some source) :
      (ListView.units (.arg b 0) unit).Walks feed n (Cutter.Placed feed source unit) (fun _ s => s.1.IsOver)
        (fun f => Cutter.answer (puller f) b.ty unit .ended) (fun f => Cutter.answer (puller f) b.ty unit .current)
        fun f => Cutter.answer (puller f) b.ty unit .advance := by
    rw [TextView.arg_eq hk]
    exact Cutter.walks h (hargs.getElem? hk) b.ty unit
  constructor
  · intro seen k s hs
    refine (answerUnits_tells (R := fun e cutter => e = true → cutter.IsOver) hs (fun hk => hmissing hk _ _)
      fun _ _ hk hc => (hwalks hk).endedOver hc).imp ?_
    rintro seen' e ⟨b', cutter⟩ - - ⟨hs', hover⟩
    exact ⟨hs', fun he => .done _ _ _ (hover he)⟩
  · exact fun hs => (answerUnits_tells (R := fun _ _ => True) hs (fun hk => hmissing hk _ _) fun _ _ hk hc =>
      ((hwalks hk).current hc).imp fun _ _ _ _ _ hc' => ⟨hc', trivial⟩).imp fun _ _ _ _ _ hs' => hs'.1
  · exact fun hs => (answerUnits_tells (R := fun _ _ => True) hs (fun hk => hmissing hk _ _) fun _ _ hk hc =>
      ((hwalks hk).advance hc).imp fun _ _ _ _ _ hc' => ⟨hc', trivial⟩).imp fun _ _ _ _ _ hs' => hs'.1

end Units

theorem Pulls.streamMoreArg {τ : Type} [Holder τ] (h : Pulls feed n) (hargs : b.Unpulled)
    (hb : b.At feed seen places b') (k : Nat) (t : τ) (buffer : Bytes) (rebuild : Bytes → τ) :
    Tracks feed n seen (b', t)
      (fun f => do
        let source ← onFirst (Bound.arg k)
        within (buffer, source)
          (fun (buffer, source) => ({ b' with args := b'.args.set k source }, rebuild buffer))
          (streamMore (puller f)))
      ((TextView.arg b k).next (places k)) fun seen' chunk u s bytes => bytes = [] ∧
        ∃ more, s.2 = rebuild (buffer ++ more) ∧ (TextView.arg b k).Streamed feed
          (fun seen i b' => b.At feed seen (Function.update places k i) b') (places k) seen' chunk u s.1 more := by
  cases hk : b.args[k]? with
  | none =>
    refine .ofFail (TextView.next_arg_fails hk (places k)) fun w _ => ⟨((b', t), w), fun f => ?_⟩
    rw [bind_run, Bound.onFirst_arg_of_none (hb.getElem?_eq_none hk), hb.name_eq]
  | some source =>
    obtain ⟨source', hk', hsource'⟩ := hb.exists_getElem? hk
    rw [TextView.arg_eq hk]
    have hmore : Tracks feed n seen (b', t)
        (fun f => within (buffer, source')
          (fun (buffer, source) => ({ b' with args := b'.args.set k source }, rebuild buffer))
          (streamMore (puller f)))
        ((TextView.of source).next (places k)) _ :=
      Tracks.within (Tracks.gather ((h.text (hargs.getElem? hk)).stream hsource'))
    refine (hmore.congr fun f w => ?_).imp ?_
    · rw [bind_run, Bound.onFirst_arg_of_some hk']
    · rintro seen' chunk u _ _ hfurther - ⟨⟨_, source''⟩, rfl, rfl, more, rfl, hstreamed⟩
      obtain ⟨j, hat, hpassed⟩ := TextView.streamed_iff.1 hstreamed
      exact ⟨rfl, more, rfl, TextView.streamed_iff.2 ⟨j, hb.set hfurther hk hat, hpassed⟩⟩

namespace ByteList

def Placed (feed : Feed) (b : Bound) (seen : Reach) (k : Nat) (s : Bound × Bytes) : Prop :=
  b.Works feed (.bytes []) seen k s.1 (.bytes s.2)

theorem fill_tracks (h : Pulls feed n) (hargs : b.Unpulled) {k : Nat} {s : Bound × Bytes}
    (hs : Placed feed b seen k s) :
    Tracks feed n seen s (fun f => fill (puller f)) ((TextView.arg b 0).byteAt k)
      fun seen' front _ s' bytes => bytes = [] ∧ s'.2.head? = front ∧ Placed feed b seen' k s' ∧
        Placed feed b seen' (k + 1) (s'.1, s'.2.tail) ∧
        (front = none → (s'.1.suspend (.bytes s'.2)).Over feed seen') := by
  obtain ⟨b', ahead⟩ := s
  obtain ⟨places, hb, soFar, hfront, rfl, hlength⟩ := hs
  let enough (soFar : Bytes) : Bool := k < soFar.length
  let Rep (seen : Reach) (i : Nat) (soFar : Bytes) (_ : Unit) (s : Bound × Bytes) : Prop :=
    (∃ places, b.At feed seen places s.1 ∧ places 0 = i) ∧ s.2 = soFar.drop k ∧
      (k ≤ soFar.length ∨ ((TextView.arg b 0).ended i).Gives feed true)
  let Fin (seen : Reach) (i : Nat) (soFar : Bytes) (u : Unit) (s : Bound × Bytes) : Prop :=
    Rep seen i soFar u s ∧ (s.2 = [] → s.1.ArgOver feed seen 0)
  refine Tracks.mapped (Tracks.imp (TextView.loop_tracks enough (fun _ => []) (R := Rep) (F := Fin) ?_ rfl
    (fun _ _ => rfl) ?_ ⟨⟨places, hb, rfl⟩, rfl, hlength⟩ hfront) fun _ _ _ _ _ _ _ => id) ?_
  · rintro seen i soFar _ ⟨b', _⟩ ⟨⟨places, hb, rfl⟩, rfl, hlength⟩
    refine Tracks.look ?_
    by_cases hk : k < soFar.length
    · have hempty : (soFar.drop k).isEmpty = false := by simp [hk]
      simp only [TextView.round, enough, hk, hempty, decide_true, if_true, Bool.not_false]
      refine .pure ⟨rfl, ⟨⟨places, hb, rfl⟩, rfl, hlength⟩, fun hnil => ?_⟩
      rw [show soFar.drop k = [] from hnil] at hempty
      cases hempty
    · have hempty : (soFar.drop k).isEmpty = true := by simpa using hk
      simp only [TextView.round, enough, hk, hempty, decide_false, Bool.false_eq_true, if_false, Bool.not_true]
      refine TextView.bindEnded (Tells.onFirst (h.textEndedOverArg hargs hb 0)) ?_ ?_
      · rintro seen' _ - ⟨b'', rfl, hb', hover⟩ -
        exact .pure ⟨rfl, ⟨⟨places, hb', rfl⟩, rfl, hlength⟩, fun _ => hover rfl⟩
      · rintro seen' _ - ⟨b'', rfl, hb', -⟩ hgoes
        refine Tracks.look (Tracks.assoc ((h.streamMoreArg hargs hb' 0 (soFar.drop k) [] id).andThen ?_))
        rintro seen'' chunk _ ⟨b₂, more⟩ _ - hchunk ⟨rfl, _, rfl, hstreamed⟩
        obtain ⟨c, j, rfl, hij, hruns, hb₂⟩ := hstreamed.of_more hchunk hgoes
        have hle : k ≤ soFar.length := hlength.resolve_right fun hended => by cases hended.unique hgoes
        refine .pure ⟨j, more, hij, hruns, rfl, ⟨_, hb₂, Function.update_self ..⟩, ?_, .inl ?_⟩
        · rw [show k = soFar.length by omega, List.drop_left]
        · rw [List.length_append]
          omega
  · intro soFar more henough
    simp only [enough, decide_eq_true_eq, List.length_append] at *
    omega
  · rintro seen' least _ ⟨b'', _⟩ bytes - -
      ⟨j, rest, hrest, rfl, hreached, ⟨⟨places', hb', rfl⟩, rfl, hlength'⟩, hover⟩
    have hruns := hfront.trans hrest
    have hstops : k + 1 ≤ (soFar ++ rest).length ∨ ((TextView.arg b 0).ended (places' 0)).Gives feed true := by
      obtain ⟨henough, more, hmore⟩ | ⟨-, -, hended⟩ := hreached
      · rw [hmore, List.length_append]
        have henough : k < least.length := by simpa [enough] using henough
        exact .inl (by omega)
      · exact .inr hended
    have hhead : ((soFar ++ rest).drop k).head? = least[k]? := by
      rw [List.head?_drop]
      refine hreached.eq_of_stable (f := (·[k]?)) fun soFar more henough => ?_
      exact List.getElem?_append_left (by simpa [enough] using henough)
    refine ⟨rfl, hhead, ⟨places', hb', _, hruns, rfl, hlength'⟩,
      ⟨places', hb', _, hruns, List.tail_drop .., hstops⟩, fun hnone => ?_⟩
    have hnil : (soFar ++ rest).drop k = [] := List.head?_eq_none_iff.1 (hhead.trans hnone)
    exact (hover hnil).suspend ⟨hnil, rfl⟩

theorem walks (h : Pulls feed n) (hargs : b.Unpulled) :
    (ListView.bytes (.arg b 0)).Walks feed n (Placed feed b)
      (fun seen s => (s.1.suspend (.bytes s.2)).Over feed seen) (fun f => answer (puller f) .ended)
      (fun f => answer (puller f) .current) fun f => answer (puller f) .advance := by
  have hfill : (ListView.bytes (.arg b 0)).Walks feed n (Placed feed b)
      (fun seen s => (s.1.suspend (.bytes s.2)).Over feed seen) _ _ _ :=
    ListView.walks_of_fetch (fun s => s.2.head?) (fun s => (s.1, s.2.tail)) (fill_tracks h hargs)
  refine hfill.congr (fun f s => ?_) (fun f s => ?_) fun _ _ => rfl
  all_goals
    simp only [answer, bind_run]
    cases fill (puller f) s with
    | error => rfl
    | ok _ s' =>
      obtain ⟨⟨b', ahead⟩, w⟩ := s'
      cases ahead <;> rfl

end ByteList

namespace TextView

variable {separator : Bytes} {start : Nat} {soFar : Bytes}

theorem pieceIn_of_find? (h : Bytes.find? separator (soFar.drop start) = some size) :
    pieceIn separator start soFar = ((soFar.drop start).take size, some (start + size + separator.length)) := by
  simp [pieceIn, h]

theorem pieceIn_of_not_find? (h : Bytes.find? separator (soFar.drop start) = none) :
    pieceIn separator start soFar = (soFar.drop start, none) := by
  simp [pieceIn, h]

theorem find?_drop_append (hseparator : separator.isEmpty = false)
    (h : Bytes.find? separator (soFar.drop start) = some size) (more : Bytes) :
    Bytes.find? separator ((soFar ++ more).drop start) = some size := by
  have hpos : 0 < separator.length := List.length_pos_iff.2 (by simpa using hseparator)
  have hsize := Bytes.find?_add_length_le h
  rw [List.length_drop] at hsize
  rw [List.drop_append_of_le_length (by omega)]
  exact Bytes.find?_append h more

theorem pieceIn_append (hseparator : separator.isEmpty = false)
    (h : Bytes.find? separator (soFar.drop start) = some size) (more : Bytes) :
    pieceIn separator start (soFar ++ more) = pieceIn separator start soFar := by
  have hpos : 0 < separator.length := List.length_pos_iff.2 (by simpa using hseparator)
  have hsize := Bytes.find?_add_length_le h
  rw [pieceIn_of_find? h, pieceIn_of_find? (find?_drop_append hseparator h more)]
  rw [List.length_drop] at hsize
  rw [List.drop_append_of_le_length (by omega), List.take_append_of_le_length (by rw [List.length_drop]; omega)]

end TextView

namespace Splitter

variable {t : TextView} {separator : Bytes} {k i : Nat} {splitter : Splitter}

def Known (splitter : Splitter) : Prop :=
  splitter.current.isSome = true ∨ splitter.done = true

theorem CutAt.front (h : splitter.CutAt feed t separator k i) (hknown : splitter.Known)
    (hseparator : separator.isEmpty = false) : (t.pieceAt separator k).Gives feed splitter.current := by
  obtain ⟨soFar, -, ⟨start, hcurrent, hdone, -⟩ | ⟨start, piece, next, hcurrent, -, hstart, hpiece, -⟩ |
    ⟨hcurrent, -, hstart⟩⟩ := h
  · simp [Known, hcurrent, hdone] at hknown
  · simp only [TextView.pieceAt, hseparator, hcurrent]
    exact hstart.bind (hpiece.bind (.pure _))
  · simp only [TextView.pieceAt, hseparator, hcurrent]
    exact hstart.bind (.pure _)

theorem CutAt.advance (h : splitter.CutAt feed t separator k i) (hknown : splitter.Known) :
    CutAt feed t separator (k + 1) i { splitter with current := none } := by
  obtain ⟨soFar, hruns, ⟨start, hcurrent, hdone, -⟩ | ⟨start, piece, next, hcurrent, hdone, hstart, hpiece, hpending⟩ |
    ⟨hcurrent, hdone, hstart⟩⟩ := h
  · simp [Known, hcurrent, hdone] at hknown
  · have hnext : (t.pieceStart separator (k + 1)).Gives feed next :=
      hstart.bind (hpiece.bind (.pure _))
    cases next with
    | none => exact ⟨soFar, hruns, .inr (.inr ⟨rfl, hdone, hnext⟩)⟩
    | some start' =>
      obtain ⟨hle, hpending⟩ := hpending start' rfl
      exact ⟨soFar, hruns, .inl ⟨start', rfl, hdone, hnext, hle, hpending⟩⟩
  · have hnext : (t.pieceStart separator (k + 1)).Gives feed none := hstart.bind (.pure _)
    exact ⟨soFar, hruns, .inr (.inr ⟨rfl, hdone, hnext⟩)⟩

theorem At.read {separator : View Bytes} {known : Bytes} (h : splitter.At feed t separator k i)
    (hseparator : separator.Gives feed known) :
    Splitter.At feed t separator k i { splitter with separator := some known } := by
  refine ⟨hseparator, ?_⟩
  unfold Splitter.At at h
  split at h
  case h_1 hnone =>
    obtain ⟨rfl, rfl, rfl⟩ := h
    dsimp only
    split
    · exact ⟨rfl, nofun⟩
    · exact ⟨[], .refl 0, .inl ⟨0, rfl, rfl, .pure _, Nat.le_refl 0, rfl⟩⟩
  case h_2 known' hsome =>
    obtain rfl := hseparator.unique h.1
    rw [← hsome]
    exact h.2

def Placed (feed : Feed) (b : Bound) (seen : Reach) (k : Nat) (s : Bound × Splitter) : Prop :=
  b.Works feed (.split {}) seen k s.1 (.split s.2)

theorem readSeparator_tells (h : Pulls feed n) (hargs : b.Unpulled) {s : Bound × Splitter}
    (hs : Placed feed b seen k s) :
    Tells feed n seen s (fun f => readSeparator (puller f)) (View.argBytes b 0) fun seen' known s' =>
      Placed feed b seen' k s' ∧ s'.2 = { s.2 with separator := some known } := by
  obtain ⟨b', splitter⟩ := s
  obtain ⟨places, hb, hplace, hat⟩ := hs
  refine Tracks.look ?_
  cases hseparator : splitter.separator with
  | some known =>
    have hknown : (View.argBytes b 0).Gives feed known := by
      simp only [Splitter.At, hseparator] at hat
      exact hat.1
    refine Tracks.given hknown (.pure ⟨rfl, rfl, ⟨places, hb, hplace, hat⟩, ?_⟩)
    rw [← hseparator]
  | none =>
    refine Tracks.andThen (h.bytesArg hargs hb (hplace hseparator)).onFirst ?_
    rintro seen' known _ _ _ - hknown ⟨rfl, rfl, b'', rfl, j, hb''⟩
    refine Tracks.afterChange (Tells.pure ⟨⟨_, hb'', nofun, ?_⟩, rfl⟩)
    rw [Function.update_of_ne (by decide)]
    exact hat.read hknown

def Cut (separator : Bytes) (start : Nat) (soFar : Bytes) (splitter : Splitter) : Prop :=
  splitter.separator = some separator ∧
    splitter.current = some (TextView.pieceIn separator start soFar).1 ∧
    splitter.done = (TextView.pieceIn separator start soFar).2.isNone ∧
    ∀ start', (TextView.pieceIn separator start soFar).2 = some start' →
      start' ≤ soFar.length ∧ splitter.pending = soFar.drop start'

theorem cutPiece_tracks (h : Pulls feed n) (hargs : b.Unpulled) (hb : b.At feed seen places b')
    (hseparator : separator.isEmpty = false) {start : Nat} {soFar : Bytes} (hstart : start ≤ soFar.length)
    (hfront : (TextView.arg b 1).Runs feed 0 (places 1) soFar) :
    Tracks feed n seen (b', ⟨some separator, soFar.drop start, none, false⟩)
      (fun f => cutPiece (puller f) separator) ((TextView.arg b 1).pieceFrom separator start)
      fun seen' found _ s bytes => bytes = [] ∧ ∃ places' soFar', b.At feed seen' places' s.1 ∧
        (TextView.arg b 1).Runs feed 0 (places' 1) soFar' ∧ s.2.Cut separator start soFar' ∧
        TextView.pieceIn separator start soFar' = found := by
  let enough (soFar : Bytes) : Bool := (Bytes.find? separator (soFar.drop start)).isSome
  let Rep (seen : Reach) (i : Nat) (soFar : Bytes) (_ : Unit) (s : Bound × Splitter) : Prop :=
    (∃ places, b.At feed seen places s.1 ∧ places 1 = i) ∧ start ≤ soFar.length ∧
      s.2 = ⟨some separator, soFar.drop start, none, false⟩
  let Fin (seen : Reach) (i : Nat) (soFar : Bytes) (_ : Unit) (s : Bound × Splitter) : Prop :=
    (∃ places, b.At feed seen places s.1 ∧ places 1 = i) ∧ s.2.Cut separator start soFar
  refine Tracks.mapped (Tracks.imp (TextView.loop_tracks enough (fun _ => []) (R := Rep) (F := Fin) ?_ rfl
    (fun _ _ => rfl) ?_ ⟨⟨places, hb, rfl⟩, hstart, rfl⟩ hfront) fun _ _ _ _ _ _ _ => id) ?_
  · rintro seen i soFar _ ⟨b', _⟩ ⟨⟨places, hb, rfl⟩, hstart, rfl⟩
    refine Tracks.look ?_
    cases hfound : Bytes.find? separator (soFar.drop start) with
    | some size =>
      have hsize := Bytes.find?_add_length_le hfound
      rw [List.length_drop] at hsize
      simp only [TextView.round, enough, hfound, Option.isSome_some, if_true]
      refine Tracks.afterPut (.pure ⟨rfl, ⟨places, hb, rfl⟩, ?_⟩)
      simp only [Cut, TextView.pieceIn_of_find? hfound, Option.isNone_some, Option.some.injEq, forall_eq', true_and]
      refine ⟨by omega, ?_⟩
      rw [List.drop_drop, Nat.add_assoc]
    | none =>
      simp only [TextView.round, enough, hfound, Option.isSome_none, Bool.false_eq_true, if_false]
      refine TextView.bindEnded (Tells.onFirst (h.textEndedArg hargs hb 1)) ?_ ?_
      · rintro seen' _ - ⟨b'', rfl, hb'⟩ -
        refine Tracks.afterChange (.pure ⟨rfl, ⟨places, hb', rfl⟩, ?_⟩)
        simp [Cut, TextView.pieceIn_of_not_find? hfound]
      · rintro seen' _ - ⟨b'', rfl, hb'⟩ hgoes
        refine Tracks.look (Tracks.assoc ((h.streamMoreArg hargs hb' 1
          (⟨some separator, soFar.drop start, none, false⟩ : Splitter) (soFar.drop start)
          fun pending => ⟨some separator, pending, none, false⟩).andThen ?_))
        rintro seen'' chunk _ ⟨b₂, _⟩ _ - hchunk ⟨rfl, more, rfl, hstreamed⟩
        obtain ⟨c, j, rfl, hij, hruns, hb₂⟩ := hstreamed.of_more hchunk hgoes
        refine .pure ⟨j, more, hij, hruns, rfl, ⟨_, hb₂, Function.update_self ..⟩, ?_, ?_⟩
        · rw [List.length_append]
          omega
        · rw [List.drop_append_of_le_length hstart]
  · intro soFar more henough
    obtain ⟨size, hsize⟩ := Option.isSome_iff_exists.1 henough
    simp only [enough, TextView.find?_drop_append hseparator hsize more, Option.isSome_some]
  · rintro seen' least _ ⟨b'', splitter⟩ bytes - - ⟨j, rest, hrest, rfl, hreached, ⟨places', hb', rfl⟩, hcut⟩
    refine ⟨rfl, places', _, hb', hfront.trans hrest, hcut, ?_⟩
    refine hreached.eq_of_stable fun soFar more henough => ?_
    obtain ⟨size, hsize⟩ := Option.isSome_iff_exists.1 henough
    exact TextView.pieceIn_append hseparator hsize more

def Fetched (feed : Feed) (b : Bound) (k : Nat) (seen : Reach) (front : Option Bytes)
    (s : Bound × Splitter) : Prop :=
  s.2.current = front ∧ Placed feed b seen k s ∧ Placed feed b seen (k + 1) (s.1, { s.2 with current := none }) ∧
    (front = none → (s.1.suspend (.split s.2)).Over feed seen)

theorem Fetched.of_empty (hb : b.At feed seen places b') (hseparator : (View.argBytes b 0).Gives feed separator)
    (hempty : separator.isEmpty = true) (pending : Bytes) :
    Fetched feed b k seen (some []) (b', ⟨some separator, pending, some [], false⟩) := by
  refine ⟨rfl, ⟨places, hb, nofun, hseparator, ?_⟩, ⟨places, hb, nofun, hseparator, ?_⟩, nofun⟩
  · rw [if_pos hempty]
    exact ⟨rfl, fun _ h => (Option.some.inj h).symm⟩
  · rw [if_pos hempty]
    exact ⟨rfl, nofun⟩

theorem Fetched.of_cut (hb : b.At feed seen places b') (hseparator : (View.argBytes b 0).Gives feed separator)
    (hempty : separator.isEmpty = false) (hsplitter : splitter.separator = some separator)
    (hcut : splitter.CutAt feed (.arg b 1) separator k (places 1)) (hknown : splitter.Known) :
    Fetched feed b k seen splitter.current (b', splitter) := by
  obtain ⟨_, pending, current, done⟩ := splitter
  obtain rfl := hsplitter
  refine ⟨rfl, ⟨places, hb, nofun, hseparator, ?_⟩, ⟨places, hb, nofun, hseparator, ?_⟩, fun hnone => ?_⟩
  · rw [if_neg (by simp [hempty])]
    exact hcut
  · rw [if_neg (by simp [hempty])]
    exact hcut.advance hknown
  · have hnone : current = none := hnone
    exact .done _ _ _ ⟨hnone, hknown.resolve_left (by simp [hnone])⟩

section

variable (h : Pulls feed n) (hargs : b.Unpulled)
include h hargs

theorem cut_tracks (hb : b.At feed seen places b') (hseparator : (View.argBytes b 0).Gives feed separator)
    (pending : Bytes)
    (hat : Splitter.At feed (.arg b 1) (View.argBytes b 0) k (places 1) ⟨some separator, pending, none, false⟩) :
    Tracks feed n seen (b', ⟨some separator, pending, none, false⟩)
      (fun f => do
        if separator.isEmpty then
          change fun (b, splitter) => (b, { splitter with current := some [] })
        else cutPiece (puller f) separator)
      ((TextView.arg b 1).pieceAt separator k)
      fun seen' front _ s' bytes => bytes = [] ∧ Fetched feed b k seen' front s' := by
  cases hempty : separator.isEmpty with
  | true =>
    simp only [TextView.pieceAt, hempty, if_true]
    exact Tracks.change ⟨rfl, .of_empty hb hseparator hempty pending⟩
  | false =>
    have hcut := hat.2
    rw [if_neg (by simp [hempty])] at hcut
    obtain ⟨soFar, hruns, ⟨start, -, -, hstart, hle, rfl⟩ | ⟨_, _, _, ⟨⟩, _⟩ | ⟨_, ⟨⟩, _⟩⟩ := hcut
    simp only [TextView.pieceAt, hempty, Bool.false_eq_true, if_false]
    refine Tracks.known hstart (Tracks.mapped (cutPiece_tracks h hargs hb hempty hle hruns) ?_)
    rintro seen' ⟨piece, next⟩ _ ⟨b'', splitter⟩ _ - hpiece
      ⟨rfl, places', soFar', hb', hruns', ⟨hsplitter, hcurrent, hdone, hpending⟩, hfound⟩
    rw [hfound] at hcurrent hdone hpending
    have hcut : splitter.CutAt feed (.arg b 1) separator k (places' 1) :=
      ⟨soFar', hruns', .inr (.inl ⟨start, piece, next, hcurrent, hdone, hstart, hpiece, hpending⟩)⟩
    have hfetched := Fetched.of_cut hb' hseparator hempty hsplitter hcut (.inl (by rw [hcurrent]; rfl))
    rw [hcurrent] at hfetched
    exact ⟨rfl, hfetched⟩

theorem fetch_tracks {s : Bound × Splitter} (hs : Placed feed b seen k s) :
    Tracks feed n seen s (fun f => fetch (puller f))
      (do (TextView.arg b 1).pieceAt (← View.argBytes b 0) k)
      fun seen' front _ s' bytes => bytes = [] ∧ Fetched feed b k seen' front s' := by
  obtain ⟨b', splitter⟩ := s
  refine Tracks.look ?_
  cases hfetch : splitter.current.isNone && !splitter.done with
  | true =>
    obtain ⟨separator, pending, current, done⟩ := splitter
    obtain ⟨rfl, rfl⟩ : current = none ∧ done = false := by simpa using hfetch
    simp only [hfetch, if_true]
    refine (readSeparator_tells h hargs hs).bind ?_
    rintro seen' separator ⟨b', _⟩ - hseparator ⟨⟨places, hb, -, hat⟩, rfl⟩
    exact cut_tracks h hargs hb hseparator pending hat
  | false =>
    have hknown : splitter.Known := by
      rw [Bool.and_eq_false_iff] at hfetch
      simpa [Known] using hfetch
    simp only [hfetch, Bool.false_eq_true, if_false]
    obtain ⟨places, hb, -, hat⟩ := hs
    obtain ⟨separator, pending, current, done⟩ := splitter
    cases separator with
    | none =>
      obtain ⟨⟨⟩, -⟩ := hat
      simp [Known] at hknown
    | some separator =>
      refine Tracks.known hat.1 ?_
      cases hempty : separator.isEmpty with
      | true =>
        have hat' := hat.2
        rw [if_pos hempty] at hat'
        obtain ⟨rfl, hcurrent⟩ := hat'
        obtain ⟨piece, rfl⟩ := Option.isSome_iff_exists.1 (hknown.resolve_right nofun)
        obtain rfl := hcurrent piece rfl
        simp only [TextView.pieceAt, hempty, if_true]
        exact .pure ⟨rfl, .of_empty hb hat.1 hempty pending⟩
      | false =>
        have hcut := hat.2
        rw [if_neg (by simp [hempty])] at hcut
        exact Tracks.given (hcut.front hknown hempty) (.pure ⟨rfl, .of_cut hb hat.1 hempty rfl hcut hknown⟩)

theorem walks :
    (ListView.pieces (.arg b 1) (View.argBytes b 0)).Walks feed n (Placed feed b)
      (fun seen s => (s.1.suspend (.split s.2)).Over feed seen)
      (fun f => answer (puller f) .ended) (fun f => answer (puller f) .current)
      fun f => answer (puller f) .advance := by
  have hfetch : (ListView.pieces (.arg b 1) (View.argBytes b 0)).Walks feed n (Placed feed b)
      (fun seen s => (s.1.suspend (.split s.2)).Over feed seen) _ _ _ :=
    ListView.walks_of_fetch (fun s => s.2.current) (fun s => (s.1, { s.2 with current := none })) fun hs =>
      fetch_tracks h hargs hs
  refine hfetch.congr (fun _ _ => rfl) (fun f s => ?_) fun _ _ => rfl
  simp only [answer, bind_run]
  cases fetch (puller f) s with
  | error => rfl
  | ok _ s' =>
    simp only [look_run]
    cases s'.1.2.current <;> rfl

end

end Splitter

end PullScript
