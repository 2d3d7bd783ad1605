import PullScript.Proofs.Rewinding.Landing
import PullScript.Proofs.View.Pulling

namespace PullScript

open Act

variable {feed : Feed} {n : Nat} {seen seen' : Reach} {b b' b'' : Bound} {places : Nat → Nat} {k : Nat}

variable {name : String} {ty : Ty} {args : List Value}

def Value.GoesBack (value : Value) : Prop :=
  ∀ n w error s, (puller n).rewind (value, w) ≠ .error (.failed error) s

def Value.StaysPut (value : Value) : Prop :=
  ∀ n w s, (puller n).rewind (value, w) ≠ .ok () s

def Task.track : Task Value → Option Nat
  | .map | .take _ | .drop _ => some 1
  | .tail _ | .init _ => some 0
  | _ => none

def Task.IsAlone : Task Value → Prop
  | .bytes _ | .units .. | .split _ | .repeat | .reverse _ => True
  | _ => False

inductive Value.OneTrack : Value → Prop
  | list (elements : List Ty) (items : List Value) (position : Nat) : OneTrack (.list elements items position)
  | recast (ty : Ty) (position : Nat) {source : Value} : OneTrack source → OneTrack (.recast ty source position)
  | clusters (source : Value) (cutter : Cutter) : OneTrack (.clusters source cutter)
  | defined (name doc : String) {value : Value} : OneTrack value → OneTrack (.defined name doc value)
  | alone (name : String) (ty : Ty) (args : List Value) {task : Task Value} : task.IsAlone →
    OneTrack (.suspended name ty args task)
  | along (name : String) (ty : Ty) {args : List Value} {task : Task Value} {j : Nat} {arg : Value} :
    task.track = some j → args[j]? = some arg → OneTrack arg → OneTrack (.suspended name ty args task)
  | zipWith (name : String) (ty : Ty) {args : List Value} {left : Value} : args[1]? = some left → OneTrack left →
    (left.StaysPut ∨ ∃ right, args[2]? = some right ∧ right.GoesBack) →
    OneTrack (.suspended name ty args .zipWith)
  | pick (name : String) (ty : Ty) (args : List Value) (choice : Choice) (item : Option Value) :
    (∀ n w error s, choice.onItem (puller n) (pure ()) ((⟨name, ty, args⟩, item), w) ≠ .error (.failed error) s) →
    (∀ n w b found w',
      choice.onItem (puller n) (pure ()) ((⟨name, ty, args⟩, item), w) = .ok () ((b, some found), w') → OneTrack found) →
    OneTrack (.suspended name ty args (.pick choice item))

def Bound.OneTrack (b : Bound) (j : Nat) : Prop :=
  ∃ arg, b.args[j]? = some arg ∧ arg.OneTrack

variable {task : Task Value}

theorem Value.OneTrack.arg {j : Nat} (h : (Value.suspended name ty args task).OneTrack)
    (htask : task.track = some j) : (⟨name, ty, args⟩ : Bound).OneTrack j := by
  cases h with
  | alone _ _ _ halone => cases task <;> first | exact halone.elim | cases htask
  | along _ _ htrack harg hone =>
    obtain rfl := Option.some.inj (htrack.symm.trans htask)
    exact ⟨_, harg, hone⟩
  | zipWith => cases htask
  | pick => cases htask

theorem Value.OneTrack.left (h : (Value.suspended name ty args .zipWith).OneTrack) :
    (⟨name, ty, args⟩ : Bound).OneTrack 1 := by
  cases h with
  | alone _ _ _ halone => exact halone.elim
  | along _ _ htrack => cases htrack
  | zipWith _ _ hleft hone => exact ⟨_, hleft, hone⟩

theorem Value.OneTrack.right (h : (Value.suspended name ty args .zipWith).OneTrack) {w : World} {s : Bound × World}
    (hrun : Bound.on 1 (puller n).rewind (⟨name, ty, args⟩, w) = .ok () s) :
    ∃ right, args[2]? = some right ∧ right.GoesBack := by
  cases h with
  | alone _ _ _ halone => exact halone.elim
  | along _ _ htrack => cases htrack
  | zipWith _ _ hleft _ hright =>
    obtain hput | hback := hright
    · rw [Bound.on_run hleft, within_run] at hrun
      obtain ⟨s', hleft', -⟩ := Result.on_eq_ok_iff.1 hrun
      exact absurd hleft' (hput _ _ _)
    · exact hback

theorem Bound.on_not_failed {α : Type} {a : Value} {act : Act Value α} (hk : b.args[k]? = some a)
    (h : ∀ w error s, act (a, w) ≠ .error (.failed error) s) (w : World) (error : Error) (s : Bound × World) :
    Bound.on k act (b, w) ≠ .error (.failed error) s := by
  rw [Bound.on_run hk, within_run]
  intro hrun
  obtain ⟨s', hact, -⟩ := Result.on_eq_error_iff.1 hrun
  exact h _ _ _ hact

def Value.KeepsOver (feed : Feed) (seen seen' : Reach) (v v' : Value) : Prop :=
  v.Over feed seen → v'.Over feed seen'

def Bound.KeepsOver (feed : Feed) (seen seen' : Reach) (b b' : Bound) : Prop :=
  ∀ i, b.ArgOver feed seen i → b'.ArgOver feed seen' i

theorem Bound.KeepsOver.set {a v : Value} (hk : b.args[k]? = some a) (hv : a.KeepsOver feed seen seen' v)
    (hfurther : Further seen seen') : b.KeepsOver feed seen seen' { b with args := b.args.set k v } := by
  rintro i ⟨c, hc, hover⟩
  by_cases hi : i = k
  · subst hi
    obtain rfl := Option.some.inj (hk.symm.trans hc)
    exact ⟨v, List.getElem?_set_self (List.getElem?_eq_some_iff.1 hk).1, hv hover⟩
  · exact ⟨c, by rw [List.getElem?_set_ne (Ne.symm hi), hc], hover.mono hfurther⟩

theorem Bound.KeepsOver.suspend (h : b'.KeepsOver feed seen seen' b'') (hsimple : task.IsSimple) :
    (b'.suspend task).KeepsOver feed seen seen' (b''.suspend task) := by
  intro hover
  cases hover with
  | done _ _ _ htask => exact .done _ _ _ htask
  | follows _ _ hfollows harg hover =>
    obtain ⟨arg', harg', hover'⟩ := h _ ⟨_, harg, hover⟩
    exact .follows _ _ hfollows harg' hover'
  | picked => exact hsimple.elim
  | joining => exact hsimple.elim

/-- Work leads a list from the place `k` back to its start. Where it fails, a list on one track is where it was. -/
def Value.LeadsBack (feed : Feed) (seen : Reach) (list : Value) (k : Nat) (act : Act Value Unit) (v : Value) :
    Prop :=
  Lands feed seen v.OneTrack v act (fun seen' _ v' => list.At feed seen' 0 v') fun seen' v' =>
    list.At feed seen' k v' ∧ v.KeepsOver feed seen seen' v'

def Rewinds (feed : Feed) (n : Nat) : Prop :=
  ∀ {seen : Reach} {list : Value} {k : Nat} {v : Value}, list.Unpulled → list.At feed seen k v →
    list.LeadsBack feed seen k (puller n).rewind v

section Arguments

variable (h : Rewinds feed n) (hargs : b.Unpulled)
include h hargs

theorem Rewinds.arg (hb : b.At feed seen places b') (j : Nat) :
    Lands feed seen (b'.OneTrack j) b' (Bound.on j (puller n).rewind)
      (fun seen' _ b'' => b.At feed seen' (Function.update places j 0) b'') fun seen' b'' =>
        b.At feed seen' places b'' ∧ b'.KeepsOver feed seen seen' b'' := by
  refine Bound.on_lands (fun ⟨arg, harg, _⟩ hnone => ?_) fun a' ha' => ?_
  · rw [hnone] at harg
    cases harg
  · obtain ⟨a, ha, hat⟩ := hb.exists_original ha'
    refine (h (hargs.getElem? ha) hat).imp ?_ ?_ ?_
    · rintro ⟨arg, harg, hone⟩
      obtain rfl := Option.some.inj (ha'.symm.trans harg)
      exact hone
    · exact fun seen' _ v hfurther hv => hb.set hfurther ha hv
    · rintro seen' v hfurther - ⟨hv, hover⟩
      have hset := hb.set hfurther ha hv
      rw [Function.update_eq_self] at hset
      exact ⟨hset, .set ha' hover hfurther⟩

theorem Rewinds.argThen {τ : Type} [Holder τ] (hb : b.At feed seen places b') (j : Nat) (t : τ) (reset : τ → τ) :
    Lands feed seen (b'.OneTrack j) (b', t)
      (do
        onFirst (Bound.on j (puller n).rewind)
        change fun s => (s.1, reset s.2))
      (fun seen' _ s => b.At feed seen' (Function.update places j 0) s.1 ∧ s.2 = reset t) fun seen' s =>
        (b.At feed seen' places s.1 ∧ b'.KeepsOver feed seen seen' s.1) ∧ s.2 = t := by
  refine Lands.bind (Q := fun seen' _ s => b.At feed seen' (Function.update places j 0) s.1 ∧ s.2 = t) ?_ ?_
  · refine Lands.onFirst ((h.arg hargs hb j).imp id ?_ ?_)
    · exact fun _ _ _ _ hb' => ⟨hb', rfl⟩
    · exact fun _ _ _ _ hb' => ⟨hb', rfl⟩
  · rintro seen' _ ⟨b₁, _⟩ - ⟨hb₁, rfl⟩
    exact .change ⟨hb₁, rfl⟩

end Arguments

namespace Choice

variable {α : Type} {choice : Choice} {s : Bound × Option Value} {act : Act Value α}

def fetch (p : Puller) (choice : Choice) : Act (Bound × Option Value) Unit := do
  let item ← onFirst (choice.find p)
  let item ← coerce p item (target (← look).1.ty)
  change fun s => (s.1, some item)

theorem onItem_run_none (p : Puller) (choice : Choice) (act : Act Value α) (b : Bound) (w : World) :
    choice.onItem p act ((b, none), w) = (do
      choice.fetch p
      match ← look with
      | (b, some item) => within item (fun item => (b, some item)) act
      | (_, none) => fail (.runtime .pastEnd)) ((b, none), w) := by
  simp only [fetch, bind_assoc]
  rfl

theorem onItem_pure_run (p : Puller) (choice : Choice) (b : Bound) (item : Value) (w : World) :
    choice.onItem p (pure ()) ((b, some item), w) = .ok () ((b, some item), w) :=
  rfl

theorem onItem_eq_bind (p : Puller) (choice : Choice) (act : Act Value α) (s : (Bound × Option Value) × World) :
    choice.onItem p act s = (choice.onItem p (pure ()) >>= fun _ => choice.onItem p act) s := by
  obtain ⟨⟨b, _ | item⟩, w⟩ := s
  · rw [bind_run, onItem_run_none, onItem_run_none, bind_run, bind_run]
    rcases choice.fetch p ((b, none), w) with ⟨_, ⟨⟨b', _ | item⟩, w'⟩⟩ | ⟨stop, s'⟩
    · rfl
    · rfl
    · rfl
  · rfl

theorem onItem_lands (h : Pulls feed n) (hargs : b.Unpulled) (hkind : b.ty.kind ≠ .arrow)
    (hs : Placed feed b choice seen k s) {F : Prop} {Q : Reach → α → Bound × Option Value → Prop}
    {E : Reach → Bound × Option Value → Prop}
    (hfind : F → ∀ w error s', choice.onItem (puller n) (pure ()) (s, w) ≠ .error (.failed error) s')
    (hact : ∀ {seen' b' places item item' w w'}, Further seen seen' → b.At feed seen' places b' →
      (choice.view b).Gives feed item → item.At feed seen' k item' →
      choice.onItem (puller n) (pure ()) (s, w) = .ok () ((b', some item'), w') →
      Lands feed seen' F item' act (fun seen'' a v => Q seen'' a (b', some v)) fun seen'' v => E seen'' (b', some v)) :
    Lands feed seen F s (choice.onItem (puller n) act) Q E := by
  have hitem {seen : Reach} {item item' : Value} (_ : item.Unpulled) (hat : item.At feed seen k item') :
      Tells feed n seen item' (fun _ => pure ()) (pure ()) fun seen' _ v => item.At feed seen' k v ∧ True :=
    Tells.pure ⟨hat, trivial⟩
  have hfound := onItem_tellsItem (R := fun _ _ _ => True) h hargs hkind hs hitem
  refine Lands.congr _ (.bind (Lands.ofTracks hfound hfind).ran ?_) fun w => onItem_eq_bind ..
  rintro seen' _ ⟨b', _⟩ hfurther ⟨⟨_, _, -, -, -, ⟨places, hb, -, hitem⟩, item', rfl, -⟩, w, w', hrun⟩
  obtain ⟨item, hgives, hat⟩ := hitem
  exact Lands.congr _ (.within (hact hfurther hb hgives hat hrun)) fun _ => rfl

end Choice

/-- When the argument `j` has gone back, work whose state is reset is at its start. -/
def Task.Resets {τ : Type} (feed : Feed) (task : Task Value) (j : Nat) (wrap : τ → Task Value) (reset : τ → τ) :
    Prop :=
  ∀ ⦃b args' args'' seen seen' places k t⦄, Task.At feed seen b args' places k task (wrap t) →
    Task.At feed seen' b args'' (Function.update places j 0) 0 task (wrap (reset t))

theorem Take.resets (first : Take) : (Task.take first).Resets feed 1 .take fun state => { state with position := 0 } := by
  rintro b args' args'' seen seen' places k state ⟨-, -, h0, hlimit⟩
  refine ⟨rfl, Function.update_self .., ?_, hlimit⟩
  rw [Function.update_of_ne (by decide)]
  exact h0

theorem ZipWith.resets {args' args'' : List Value} (h : Task.At feed seen b args' places k .zipWith .zipWith) :
    Task.At feed seen' b args'' (Function.update (Function.update places 1 0) 2 0) 0 .zipWith .zipWith := by
  refine ⟨?_, ?_, Function.update_self ..⟩
  · rw [Function.update_of_ne (by decide), Function.update_of_ne (by decide)]
    exact h.1
  · rw [Function.update_of_ne (by decide), Function.update_self]

theorem Drop.resets (first : Bool) : (Task.drop first).Resets feed 1 .drop fun _ => false := by
  intro b args' args'' seen seen' places k skipped htask
  refine ⟨fun i hi => ?_, rfl, Function.update_self ..⟩
  rw [Function.update_of_ne hi]
  exact htask.1 i hi

theorem Tail.resets (first : Bool) : (Task.tail first).Resets feed 0 .tail fun _ => false := by
  intro b args' args'' seen seen' places k started htask
  refine ⟨fun i hi => ?_, rfl, Function.update_self ..⟩
  rw [Function.update_of_ne hi]
  exact htask.1 i hi

theorem Init.resets (first : Init Value) : (Task.init first).Resets feed 0 .init fun _ => {} := by
  intro b args' args'' seen seen' places k state htask
  refine ⟨fun i hi => ?_, rfl, Function.update_self ..⟩
  rw [Function.update_of_ne hi]
  exact htask.1 i hi

theorem Init.At.keeps {name : String} {ty : Ty} {args' : List Value} {state : Init Value}
    (h : state.At feed seen b args' places k)
    (hover : (⟨name, ty, args'⟩ : Bound).KeepsOver feed seen seen' b'') : state.At feed seen' b b''.args places k := by
  refine ⟨h.1, ?_⟩
  obtain ⟨held, started⟩ := state
  cases started with
  | true => exact ⟨h.2.1, fun hheld => hover 0 (h.2.2 hheld)⟩
  | false => exact h.2

section Answers

variable (h : Rewinds feed n) {name : String} {ty : Ty} {args args' : List Value} {v : Value}
include h

theorem answerList_rewind_along (hargs : b.Unpulled)
    (hb : b.At feed seen places b') {j : Nat} {τ : Type} [Holder τ] [Inhabited τ]
    {wrap : τ → Task Value} {reset : τ → τ} (hresets : task.Resets feed j wrap reset) {t : τ}
    (hsimple : (wrap t).IsSimple) (htrack : (wrap t).track = some j)
    (htask : Task.At feed seen b b'.args places k task (wrap t))
    (hrun : ∀ w, answerList (puller n) .rewind (b'.suspend (wrap t), w) =
      onTask b' t wrap (do
        onFirst (Bound.on j (puller n).rewind)
        change fun s => (s.1, reset s.2)) (b'.suspend (wrap t), w))
    (hstays : ∀ {seen' b''}, b'.KeepsOver feed seen seen' b'' →
      Task.At feed seen' b b''.args places k task (wrap t)) :
    (b.suspend task).LeadsBack feed seen k (answerList (puller n) .rewind)
      (b'.suspend (wrap t)) := by
  refine Lands.congr _ (.within ?_) hrun
  refine (h.argThen hargs hb j t reset).imp (fun hone => hone.arg htrack) ?_ ?_
  · rintro seen' _ ⟨b'', _⟩ - ⟨hb'', rfl⟩
    exact hb''.suspend (hresets htask)
  · rintro seen' ⟨b'', _⟩ - - ⟨⟨hb'', hover⟩, rfl⟩
    exact ⟨hb''.suspend (hstays hover), hover.suspend hsimple⟩

omit h in
theorem answerUnits_fails (p : Puller) (unit : TextUnit) (b : Bound) (cutter : Cutter) {ask : ListAsk}
    (hask : ask = .rewind ∨ ask = .count) :
    ∃ error, ∀ w, answerUnits p unit ask ((b, cutter), w) = .error (.failed error) ((b, cutter), w) := by
  have hcutter (s : (Cutter × Value) × World) : Cutter.answer p b.ty unit ask s = .error (.failed (.noRewind b.ty)) s := by
    obtain rfl | rfl := hask <;> rfl
  cases hsource : b.args[0]? with
  | none =>
    refine ⟨.runtime (.missingArgument b.name 1), fun w => ?_⟩
    rw [answerUnits, bind_run, Bound.onFirst_arg_of_none hsource]
  | some source =>
    refine ⟨.noRewind b.ty, fun w => ?_⟩
    have hsame : b.args.set 0 source = b.args := by
      obtain ⟨hlt, rfl⟩ := List.getElem?_eq_some_iff.1 hsource
      exact List.set_getElem_self hlt
    rw [answerUnits, bind_run, Bound.onFirst_arg_of_some hsource]
    simp only [bind_run, look_run, within_run, hcutter, Result.on]
    rw [hsame]

omit h in
theorem answerList_rewind_alone {task' : Task Value}
    (hb : b.At feed seen places b')
    (htask : Task.At feed seen b b'.args places k task task') (halone : task'.IsAlone) :
    (b.suspend task).LeadsBack feed seen k (answerList (puller n) .rewind)
      (b'.suspend task') := by
  have hstays : (b.suspend task).At feed seen k (b'.suspend task') ∧
      (b'.suspend task').KeepsOver feed seen seen (b'.suspend task') :=
    ⟨hb.suspend htask, id⟩
  cases task' with
  | bytes ahead => exact Lands.congr _ (.fail (.noRewind b'.ty) fun _ => hstays) fun _ => rfl
  | units unit cutter =>
    obtain ⟨error, herror⟩ := answerUnits_fails (puller n) unit b' cutter (.inl rfl)
    refine Lands.congr _ (.fail error fun _ => hstays) fun w => ?_
    change onTask b' cutter (.units unit) (answerUnits (puller n) unit .rewind)
      (b'.suspend (.units unit cutter), w) = _
    rw [onTask, within_run, herror]
    rfl
  | split splitter => exact Lands.congr _ (.fail (.noRewind b'.ty) fun _ => hstays) fun _ => rfl
  | «repeat» =>
    cases task with
    | «repeat» => exact Lands.congr _ (.pure (hb.suspend htask)) fun _ => rfl
    | _ => exact htask.elim
  | reverse state =>
    cases task with
    | reverse first =>
      obtain ⟨-, hplaces, hitems⟩ := htask
      have hback : (b.suspend (.reverse first)).At feed seen 0 (b'.suspend
          (.reverse { state with position := 0 })) := hb.suspend ⟨rfl, hplaces, hitems⟩
      exact Lands.congr _ (.put hback) fun _ => rfl
    | _ => exact htask.elim
  | _ => exact halone.elim

theorem answerList_rewind_map (hargs : b.Unpulled)
    (hb : b.At feed seen places b') (h0 : places 0 = 0) :
    (b.suspend .map).LeadsBack feed seen (places 1) (answerList (puller n) .rewind)
      (b'.suspend .map) := by
  refine Lands.congr (onArgs b' .map (Bound.on 1 (puller n).rewind)) (.within ?_) fun _ => rfl
  refine (h.arg hargs hb 1).imp (fun hone => hone.arg rfl) ?_ ?_
  · rintro seen' _ b'' - hb''
    exact hb''.suspend ⟨(Function.update_of_ne (by decide) ..).trans h0, Function.update_self ..⟩
  · rintro seen' b'' - - ⟨hb'', hover⟩
    exact ⟨hb''.suspend ⟨h0, rfl⟩, hover.suspend trivial⟩

theorem ZipWith.rewind_lands (hargs : b.Unpulled) (hb : b.At feed seen places b') :
    Lands feed seen (b'.suspend .zipWith).OneTrack b' (ZipWith.rewind (puller n))
      (fun seen' _ b'' => b.At feed seen' (Function.update (Function.update places 1 0) 2 0) b'')
      fun seen' b'' => b.At feed seen' places b'' ∧ b'.KeepsOver feed seen seen' b'' := by
  refine Lands.bind (((h.arg hargs hb 1).imp (fun hone => hone.left) (fun _ _ _ _ => id) fun _ _ _ _ => id).ran) ?_
  rintro seen' _ b'' - ⟨hb'', w, w', hrun⟩
  refine Lands.unfailing (h.arg hargs hb'' 2) ?_
  -- The first list has gone back, so the second one does.
  intro hone
  obtain ⟨right, hright, hback⟩ := hone.right hrun
  exact Bound.on_not_failed ((Bound.getElem?_of_on (by decide) hrun).trans hright) (hback n)

theorem answerList_rewind_zipWith (hargs : b.Unpulled)
    (hb : b.At feed seen places b')
    (htask : Task.At feed seen b b'.args places k .zipWith .zipWith) :
    (b.suspend .zipWith).LeadsBack feed seen k (answerList (puller n) .rewind)
      (b'.suspend .zipWith) := by
  refine Lands.congr (onArgs b' .zipWith (ZipWith.rewind (puller n))) (.within ?_) fun _ => rfl
  refine (ZipWith.rewind_lands h hargs hb).imp id ?_ ?_
  · intro seen' _ b'' _ hb''
    exact hb''.suspend (ZipWith.resets htask)
  · rintro seen' b'' - - ⟨hb'', hover⟩
    exact ⟨hb''.suspend htask, hover.suspend trivial⟩

theorem answerList_rewind_pick (hpulls : Pulls feed n) (hargs : b.Unpulled) (hkind : b.ty.kind ≠ .arrow)
    {choice : Choice} {item : Option Value}
    (hs : choice.Placed feed b seen k (b', item)) :
    (b.suspend (.pick choice none)).LeadsBack feed seen k (answerList (puller n) .rewind)
      (b'.suspend (.pick choice item)) := by
  refine Lands.congr (onTask b' item (.pick choice) (choice.onItem (puller n) (puller n).rewind))
    (.within ?_) fun _ => rfl
  refine Choice.onItem_lands hpulls hargs hkind hs ?_ ?_
  · intro hone w error s'
    cases hone with
    | alone _ _ _ halone => exact halone.elim
    | along _ _ htrack => cases htrack
    | pick _ _ _ _ _ hfound _ => exact hfound n w error s'
  · intro seen' b' places' found found' w w' hfurther hb hgives hat hrun
    have hplaced {seen'' : Reach} {j : Nat} {v : Value} (hfurther' : Further seen' seen'') (hv : found.At feed seen'' j v) :
        choice.Placed feed b seen'' j (b', some v) :=
      ⟨places', hb.mono hfurther', (absurd · hkind), found, hgives, hv⟩
    refine (h (hgives.choice_unpulled hargs) hat).imp ?_ ?_ ?_
    · intro hone
      cases hone with
      | alone _ _ _ halone => exact halone.elim
      | along _ _ htrack => cases htrack
      | pick _ _ _ _ _ _ hitem => exact hitem _ _ _ _ _ hrun
    · exact fun seen'' _ v hfurther' hv => (hplaced hfurther' hv).suspend
    · rintro seen'' v hfurther' - ⟨hv, hover⟩
      refine ⟨(hplaced hfurther' hv).suspend, fun hpick => ?_⟩
      cases hpick with
      | done _ _ _ htask => exact htask.elim
      | follows _ _ htask => exact htask.elim
      | picked _ _ _ _ hitem =>
        rw [Choice.onItem_pure_run] at hrun
        cases hrun
        exact .picked _ _ _ _ (hover (hitem.mono hfurther))

theorem answerList_rewind_task {task' : Task Value} (hargs : b.Unpulled) (hsimple : task.IsSimple)
    (hkind : task'.kind b'.ty = .lst) (hb : b.At feed seen places b')
    (htask : Task.At feed seen b b'.args places k task task') :
    (b.suspend task).LeadsBack feed seen k (answerList (puller n) .rewind)
      (b'.suspend task') := by
  cases task' with
  | bytes ahead => exact answerList_rewind_alone hb htask trivial
  | units unit cutter => exact answerList_rewind_alone hb htask trivial
  | split splitter => exact answerList_rewind_alone hb htask trivial
  | «repeat» => exact answerList_rewind_alone hb htask trivial
  | reverse state => exact answerList_rewind_alone hb htask trivial
  | map =>
    cases task with
    | map =>
      obtain ⟨h0, rfl⟩ := htask
      exact answerList_rewind_map h hargs hb h0
    | _ => exact htask.elim
  | zipWith =>
    cases task with
    | zipWith =>
      exact answerList_rewind_zipWith h hargs hb htask
    | _ => exact htask.elim
  | take state =>
    cases task with
    | take first =>
      exact answerList_rewind_along h hargs hb (Take.resets first) trivial rfl htask (fun _ => rfl) fun _ => htask
    | _ => exact htask.elim
  | drop skipped =>
    cases task with
    | drop first =>
      exact answerList_rewind_along h hargs hb (Drop.resets first) trivial rfl htask (fun _ => rfl) fun _ => htask
    | _ => exact htask.elim
  | tail started =>
    cases task with
    | tail first =>
      exact answerList_rewind_along h hargs hb (Tail.resets first) trivial rfl htask (fun _ => rfl) fun _ => htask
    | _ => exact htask.elim
  | init state =>
    cases task with
    | init first =>
      exact answerList_rewind_along h hargs hb (Init.resets first) trivial rfl htask (fun _ => rfl) fun hover =>
        Init.At.keeps htask hover
    | _ => exact htask.elim
  | pick choice item =>
    cases task with
    | pick => exact hsimple.elim
    | _ => exact htask.elim
  | _ => cases hkind

theorem answerList_rewind_suspended (hpulls : Pulls feed n) (hargs : b.Unpulled)
    (htask : task.Unbegun) (hkind : v.kind = .lst) (hat : (b.suspend task).At feed seen k v) :
    (b.suspend task).LeadsBack feed seen k (answerList (puller n) .rewind) v := by
  have hsimply (hsimple : task.IsSimple) :
      (b.suspend task).LeadsBack feed seen k (answerList (puller n) .rewind) v := by
    obtain ⟨b', places, task', rfl, hb, htask'⟩ := hat.exists_task hsimple
    exact answerList_rewind_task h hargs hsimple hkind hb htask'
  rw [hat.kind_eq] at hkind
  cases task with
  | pick choice item =>
    obtain rfl := htask
    obtain ⟨b', item, rfl, hs⟩ := hat.exists_placed
    refine answerList_rewind_pick h hpulls hargs (fun harrow => ?_) hs
    simp [Bound.suspend, Value.kind, Task.kind, harrow] at hkind
  | join => cases hkind
  | _ => exact hsimply trivial

theorem answerList_rewind_recast {source source' : Value} {position : Nat} (hsource : source.Unpulled)
    (hat : source.At feed seen k source') (hstep : Recast.InStep ty k position) :
    (Value.recast ty source 0).LeadsBack feed seen k (answerList (puller n) .rewind) (.recast ty source' position) := by
  refine Lands.congr (within (source', position) (fun s => .recast ty s.1 s.2) (answerRecast (puller n) ty .rewind))
    (.within ?_) fun _ => rfl
  refine Lands.bind (Q := fun seen' _ s => source.At feed seen' 0 s.1) (Lands.onFirst ((h hsource hat).imp ?_ ?_ ?_)) ?_
  · rintro ⟨⟩
    assumption
  · exact fun _ _ _ _ => id
  · rintro seen' v - - ⟨hv, hover⟩
    refine ⟨.recast hv hstep, fun hlist => ?_⟩
    cases hlist with
    | recast _ _ hsource' => exact .recast _ _ (hover hsource')
  · intro seen' _ s' _ hs'
    exact .change (.recast hs' (.inr rfl))

theorem answerList_rewind_defined {doc : String} {value value' : Value} (hvalue : value.Unpulled)
    (hat : value.At feed seen k value') :
    (Value.defined name doc value).LeadsBack feed seen k (answerList (puller n) .rewind) (.defined name doc value') := by
  refine Lands.congr (within value' (.defined name doc) (puller n).rewind) (.within ?_) fun _ => rfl
  refine (h hvalue hat).imp ?_ ?_ ?_
  · rintro ⟨⟩
    assumption
  · exact fun _ _ _ _ hv => .defined hv
  · rintro seen' v - - ⟨hv, hover⟩
    refine ⟨.defined hv, fun hlist => ?_⟩
    cases hlist with
    | defined _ _ hvalue' => exact .defined _ _ (hover hvalue')

theorem answerList_rewind (hpulls : Pulls feed n) {list : Value} (hlist : list.Unpulled) (hkind : v.kind = .lst)
    (hat : list.At feed seen k v) : list.LeadsBack feed seen k (answerList (puller n) .rewind) v := by
  cases list with
  | list elements items position =>
    obtain ⟨-, rfl⟩ := hlist
    cases hat with
    | list _ _ hitems =>
      rename_i items'
      have hstart : (Value.list elements items 0).At feed seen 0 (.list elements items' 0) := by
        have hfirst : (Value.list elements items 0).At feed seen 0 _ := .list elements 0 hitems
        rwa [Nat.zero_min] at hfirst
      exact Lands.congr _ (.put hstart) fun _ => rfl
  | recast ty source position =>
    obtain ⟨hsource, rfl⟩ := hlist
    cases hat with
    | recast hat hstep =>
      rename_i source' position
      exact answerList_rewind_recast h hsource hat hstep
  | clusters source cutter =>
    obtain ⟨hsource, rfl⟩ := hlist
    cases hat with
    | clusters hat hcutter =>
      rename_i source' cutter i
      refine Lands.congr _ (.fail (.noRewind (Value.clustersOf source').ty) fun _ => ⟨?_, id⟩) fun _ => rfl
      exact .clusters hat hcutter
  | defined name doc value =>
    cases hat with
    | defined hat =>
      rename_i value'
      exact answerList_rewind_defined h (show value.Unpulled from hlist) hat
  | suspended name ty args task => exact answerList_rewind_suspended (b := ⟨name, ty, args⟩) h hpulls hlist.1 hlist.2 hkind hat
  | _ =>
    rw [hat.kind_eq] at hkind
    cases hkind

end Answers

theorem rewinds (feed : Feed) (n : Nat) : Rewinds feed n := by
  induction n with
  | zero => exact fun _ _ _ _ => trivial
  | succ n h =>
    intro seen list k v hlist hat
    exact Lands.pull (fun _ => ⟨hat, id⟩) fun hkind => answerList_rewind h (pulls feed n) hlist hkind hat

end PullScript
