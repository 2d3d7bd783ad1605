import PullScript.Proofs.Lists.Items
import PullScript.Proofs.Rewinding.GoingBack

namespace PullScript

open Act

variable {feed : Feed} {n : Nat} {seen seen' : Reach} {b b' : Bound} {places : Nat → Nat} {k c : Nat}

inductive CountEffect where
  | stays
  | rewinds
  /-- Its items are at their start, but they are coerced as if they were not. -/
  | strays

def Task.CountsBySteps : Task Value → Prop
  | .repeat | .zipWith | .take _ | .drop _ | .tail _ | .init _ => True
  | _ => False

def Task.IsCut : Task Value → Prop
  | .bytes _ | .units .. | .split _ => True
  | _ => False

inductive Value.Counting : Value → CountEffect → Prop
  | list (elements : List Ty) (items : List Value) (position : Nat) : Counting (.list elements items position) .stays
  | reverse (name : String) (ty : Ty) (args : List Value) (state : Reverse Value) :
    Counting (.suspended name ty args (.reverse state)) .stays
  | cut (name : String) (ty : Ty) (args : List Value) {task : Task Value} : task.IsCut →
    Counting (.suspended name ty args task) .stays
  | clusters (source : Value) (cutter : Cutter) : Counting (.clusters source cutter) .stays
  | steps (name : String) (ty : Ty) (args : List Value) {task : Task Value} : task.CountsBySteps →
    Counting (.suspended name ty args task) .rewinds
  | recast {ty : Ty} {position : Nat} {source : Value} {effect : CountEffect} : Counting source effect →
    (effect = .rewinds → Recast.InStep ty 0 position) → Counting (.recast ty source position) effect
  | outOfStep {ty : Ty} {position : Nat} {source : Value} : Counting source .rewinds → ¬ Recast.InStep ty 0 position →
    Counting (.recast ty source position) .strays
  | defined (name doc : String) {value : Value} {effect : CountEffect} : Counting value effect →
    Counting (.defined name doc value) effect
  | map (name : String) (ty : Ty) {args : List Value} {source : Value} {effect : CountEffect} : args[1]? = some source →
    Counting source effect → Counting (.suspended name ty args .map) effect
  | picked (name : String) (ty : Ty) (args : List Value) (choice : Choice) {item : Value} {effect : CountEffect} :
    Counting item effect → Counting (.suspended name ty args (.pick choice (some item))) effect

def CountEffect.Leaves (feed : Feed) (seen : Reach) (list : Value) (k : Nat) (v : Value) : CountEffect → Prop
  | stays => list.At feed seen k v
  | rewinds => list.At feed seen 0 v
  | strays => True

def Value.Counted (feed : Feed) (list : Value) (k : Nat) (seen : Reach) (c : Nat) (v : Value) : Prop :=
  (ListView.of list).Counts feed c ∧ ∃ effect, v.Counting effect ∧ effect.Leaves feed seen list k v

/-- Counting the items of a list answers how many there are, wherever the list stands. -/
abbrev Tallied (feed : Feed) (n : Nat) (seen : Reach) (list : Value) (k : Nat) (v : Value) : Prop :=
  Lands feed seen False v (answerList (puller n) .count) (list.Counted feed k) fun _ _ => True

def Tallies (feed : Feed) (n : Nat) : Prop :=
  ∀ {seen : Reach} {list : Value} {k : Nat} {v : Value}, list.Unpulled → list.At feed seen k v →
    Lands feed seen False v (puller n).count (fun seen' c v' => list.Counted feed k seen' c v') fun _ _ => True

namespace ListView

variable {l l' : ListView}

theorem Alike.counts (h : l.Alike feed l') (hcounts : l.Counts feed c) : l'.Counts feed c where
  more k hk := ⟨(h.ended k _).1 (hcounts.more k hk).1, (h.step k).1 (hcounts.more k hk).2⟩
  ends := (h.ended c _).1 hcounts.ends

theorem Counts.mapped (h : l.Counts feed c) (change : Nat → Value → View Value) : (l.mapped change).Counts feed c :=
  ⟨h.more, h.ends⟩

theorem counts_gathered {items : View (List Value)} {known : List Value} (h : items.Gives feed known) :
    (ListView.gathered items).Counts feed known.length where
  more k hk := by
    refine ⟨h.bind (View.gives_pure_iff.2 ?_), .pure _⟩
    rw [List.getElem?_eq_getElem hk]
    rfl
  ends := by
    refine h.bind (View.gives_pure_iff.2 ?_)
    rw [List.getElem?_eq_none (Nat.le_refl _)]
    rfl

theorem counts_ofItems (items : List Value) : (ListView.ofItems items).Counts feed items.length where
  more k hk := by
    refine ⟨View.gives_pure_iff.2 ?_, .pure _⟩
    rw [List.getElem?_eq_getElem hk]
    rfl
  ends := by
    refine View.gives_pure_iff.2 ?_
    rw [List.getElem?_eq_none (Nat.le_refl _)]
    rfl

end ListView

variable {list v : Value}

theorem Value.Counted.of_ofValue {effect : CountEffect} (hkind : list.kind = .lst)
    (hcounts : (ListView.ofValue list).Counts feed c) (heffect : v.Counting effect)
    (hleaves : effect.Leaves feed seen list k v) : list.Counted feed k seen c v :=
  ⟨(ListView.alike_ofValue hkind).symm.counts hcounts, effect, heffect, hleaves⟩

theorem answerList_count_steps {σ : Type} [Holder σ] [Inhabited σ] {s : σ}
    {P : Reach → Nat → σ → Prop} {O : Reach → σ → Prop} {ended : Nat → Act σ Bool}
    {current : Nat → Act σ Value} {advance : Nat → Act σ Unit} {rewind : Act σ Unit} (rebuild : σ → Value)
    (hkind : list.kind = .lst) (hwalks : (ListView.ofValue list).Walks feed n P O ended current advance)
    (hrewind : ∀ {seen k s}, P seen k s →
      Lands feed seen False s rewind (fun seen' _ s' => P seen' 0 s') fun _ _ => True)
    (hback : ∀ {seen s}, P seen 0 s → list.At feed seen 0 (rebuild s) ∧ (rebuild s).Counting .rewinds) (hs : P seen k s)
    (hrun : ∀ w, answerList (puller n) .count (v, w) =
      within s rebuild (countBySteps n rewind (ended n) (advance n)) (v, w)) :
    Tallied feed n seen list k v := by
  refine Lands.congr _ (.within ?_) hrun
  refine (hwalks.countBySteps_lands (E := fun _ _ => True) hrewind hs).imp id ?_ fun _ _ _ _ => id
  rintro seen' c s' - ⟨hcounts, hs'⟩
  exact .of_ofValue hkind hcounts (hback hs').2 (hback hs').1

variable {task : Task Value}

section Steps

variable (h : Rewinds feed n) {name : String} {ty : Ty} {args args' : List Value}
include h

theorem Rewinds.works {τ : Type} [Holder τ] {j : Nat} {wrap : τ → Task Value} {reset : τ → τ}
    (hargs : b.Unpulled) (hresets : task.Resets feed j wrap reset) {s : Bound × τ}
    (hs : b.Works feed task seen k s.1 (wrap s.2)) :
    Lands feed seen False s
      (do
        onFirst (Bound.on j (puller n).rewind)
        change fun s => (s.1, reset s.2))
      (fun seen' _ s' => b.Works feed task seen' 0 s'.1 (wrap s'.2)) fun _ _ => True := by
  obtain ⟨b', t⟩ := s
  obtain ⟨places, hb, htask⟩ := hs
  refine (h.argThen hargs hb j t reset).imp False.elim ?_ fun _ _ _ _ _ => trivial
  rintro seen' _ ⟨b'', _⟩ - ⟨hb'', rfl⟩
  exact ⟨_, hb'', hresets htask⟩

theorem answerList_count_along {τ : Type} [Holder τ] [Inhabited τ] {j : Nat} {wrap : τ → Task Value}
    {reset : τ → τ} {t : τ} (inner : Nat → (ask : ListAsk) → Act (Bound × τ) ask.Reply) {O : Reach → Bound × τ → Prop}
    (hargs : b.Unpulled) (hkind : (b.suspend task).kind = .lst)
    (hresets : task.Resets feed j wrap reset)
    (hwalks : (ListView.ofValue (b.suspend task)).Walks feed n
      (fun seen k s => b.Works feed task seen k s.1 (wrap s.2)) O
      (fun f => inner f .ended) (fun f => inner f .current) fun f => inner f .advance)
    (hb : b.At feed seen places b')
    (htask : Task.At feed seen b b'.args places k task (wrap t)) (hsteps : ∀ t, (wrap t).CountsBySteps)
    (hrun : ∀ w, answerList (puller n) .count (b'.suspend (wrap t), w) =
      onTask b' t wrap (countBySteps n (do
        onFirst (Bound.on j (puller n).rewind)
        change fun s => (s.1, reset s.2)) (inner n .ended) (inner n .advance)) (b'.suspend (wrap t), w)) :
    Tallied feed n seen (b.suspend task) k (b'.suspend (wrap t)) := by
  refine answerList_count_steps _ hkind hwalks (h.works hargs hresets) ?_ ⟨places, hb, htask⟩ hrun
  rintro seen ⟨b', t⟩ ⟨places, hb, htask⟩
  exact ⟨hb.suspend htask, .steps _ _ _ (hsteps t)⟩

end Steps

section Answers

variable {name : String} {ty : Ty} {args args' : List Value}

theorem answerList_count_cut (h : ∀ w, ∃ error s, answerList (puller n) .count (v, w) = .error (.failed error) s) :
    Tallied feed n seen list k v := by
  intro w hw
  obtain ⟨error, s, hrun⟩ := h w
  rw [hrun]
  exact False.elim

theorem answerList_count_map (h : Tallies feed n) (hargs : b.Unpulled)
    (hb : b.At feed seen places b')
    (htask : Task.At feed seen b b'.args places k .map .map) :
    Tallied feed n seen (b.suspend .map) k (b'.suspend .map) := by
  obtain ⟨h0, rfl⟩ := htask
  refine Lands.congr (onArgs b' .map (Bound.on 1 (puller n).count)) (.within ?_) fun _ => rfl
  refine Bound.on_lands (fun hF => hF.elim) fun source' hsource' => ?_
  obtain ⟨source, hsource, hat⟩ := hb.exists_original hsource'
  refine (h (hargs.getElem? hsource) hat).imp id ?_ fun _ _ _ _ => id
  rintro seen' c v hfurther ⟨hcounts, effect, heffect, hleaves⟩
  have hlist : (ListView.ofValue (b.suspend .map)).Counts feed c :=
    ((ListView.alike_arg hsource).symm.counts hcounts).mapped _
  have hsource'' : (b'.args.set 1 v)[1]? = some v := List.getElem?_set_self (List.getElem?_eq_some_iff.1 hsource').1
  refine .of_ofValue rfl hlist (.map _ _ hsource'' heffect) ?_
  cases effect with
  | stays =>
    refine (hb.set hfurther hsource hleaves).suspend ⟨?_, Function.update_self ..⟩
    rw [Function.update_of_ne (by decide), h0]
  | rewinds =>
    refine (hb.set hfurther hsource hleaves).suspend ⟨?_, Function.update_self ..⟩
    rw [Function.update_of_ne (by decide), h0]
  | strays => trivial

theorem answerList_count_reverse (hpulls : Pulls feed n) {first state : Reverse Value} (hargs : b.Unpulled)
    (hfirst : first = {}) (hb : b.At feed seen places b')
    (htask : Task.At feed seen b b'.args places k (.reverse first) (.reverse state)) :
    Tallied feed n seen (b.suspend (.reverse first)) k (b'.suspend (.reverse state)) := by
  subst hfirst
  refine Lands.congr (onTask b' state .reverse (Reverse.answer (puller n) .count)) (.within ?_)
    fun _ => rfl
  refine (Lands.ofTells (Reverse.collect_tells (s := (b', state)) hpulls hargs
    ⟨places, hb, htask⟩)).bind ?_
  rintro seen' items ⟨b', _⟩ - ⟨hitems, ⟨places', hb', htask'⟩, rfl⟩
  exact .pure (.of_ofValue rfl (ListView.counts_gathered hitems) (.reverse ..) (hb'.suspend htask'))

theorem answerList_count_pick (hpulls : Pulls feed n) (h : Tallies feed n) (hargs : b.Unpulled)
    (hkind : b.ty.kind = .lst) {choice : Choice} {item : Option Value}
    (hs : choice.Placed feed b seen k (b', item)) :
    Tallied feed n seen (b.suspend (.pick choice none)) k (b'.suspend (.pick choice item)) := by
  have hnot : b.ty.kind ≠ .arrow := fun harrow => by simp [hkind] at harrow
  refine Lands.congr (onTask b' item (.pick choice) (choice.onItem (puller n) (puller n).count))
    (.within ?_) fun _ => rfl
  refine Choice.onItem_lands hpulls hargs hnot hs False.elim ?_
  intro seen' b' places' found found' w w' hfurther hb hgives hat hrun
  refine (h (hgives.choice_unpulled hargs) hat).imp id ?_ fun _ _ _ _ => id
  rintro seen'' c v hfurther' ⟨hcounts, effect, heffect, hleaves⟩
  have hlist : (ListView.ofValue (b.suspend (.pick choice none))).Counts feed c :=
    (ListView.alike_after hgives).symm.counts hcounts
  have hplaced {j : Nat} (hv : found.At feed seen'' j v) : choice.Placed feed b seen'' j (b', some v) :=
    ⟨places', hb.mono hfurther', (absurd · hnot), found, hgives, hv⟩
  refine .of_ofValue ?_ hlist (.picked _ _ _ _ heffect) ?_
  · simp [Bound.suspend, Value.kind, Task.kind, hkind]
  · cases effect with
    | stays => exact (hplaced hleaves).suspend
    | rewinds => exact (hplaced hleaves).suspend
    | strays => trivial

theorem answerList_count_task (hpulls : Pulls feed n) (hrewinds : Rewinds feed n) (h : Tallies feed n)
    {task' : Task Value} (hargs : b.Unpulled) (hunbegun : task.Unbegun) (hsimple : task.IsSimple)
    (hkind : task'.kind b'.ty = .lst) (hb : b.At feed seen places b')
    (htask : Task.At feed seen b b'.args places k task task') :
    Tallied feed n seen (b.suspend task) k (b'.suspend task') := by
  cases task' with
  | bytes ahead => exact answerList_count_cut fun w => ⟨_, _, rfl⟩
  | units unit cutter =>
    obtain ⟨error, herror⟩ := answerUnits_fails (puller n) unit b' cutter (.inr rfl)
    refine answerList_count_cut fun w => ⟨error, (b'.suspend (.units unit cutter), w), ?_⟩
    change onTask b' cutter (.units unit) (answerUnits (puller n) unit .count)
      (b'.suspend (.units unit cutter), w) = _
    rw [onTask, within_run, herror]
    rfl
  | split splitter => exact answerList_count_cut fun w => ⟨_, _, rfl⟩
  | «repeat» =>
    cases task with
    | «repeat» =>
      refine answerList_count_steps (·.suspend .repeat) rfl (answerRepeat_walks)
        (fun hs => .pure hs) ?_ ⟨places, hb, htask⟩ fun _ => rfl
      rintro seen b' ⟨places, hb, htask⟩
      exact ⟨hb.suspend htask, .steps _ _ _ trivial⟩
    | _ => exact htask.elim
  | zipWith =>
    cases task with
    | zipWith =>
      refine answerList_count_steps (·.suspend .zipWith) rfl (ZipWith.walks hpulls hargs)
        ?_ ?_ ⟨places, hb, htask⟩ fun _ => rfl
      · rintro seen k b' ⟨places, hb, htask⟩
        refine (ZipWith.rewind_lands hrewinds hargs hb).imp False.elim ?_ fun _ _ _ _ _ => trivial
        exact fun _ _ _ _ hb' => ⟨_, hb', ZipWith.resets htask⟩
      · rintro seen b' ⟨places, hb, htask⟩
        exact ⟨hb.suspend htask, .steps _ _ _ trivial⟩
    | _ => exact htask.elim
  | map =>
    cases task with
    | map => exact answerList_count_map h hargs hb htask
    | _ => exact htask.elim
  | take state =>
    cases task with
    | take first =>
      obtain rfl := hunbegun
      exact answerList_count_along hrewinds (fun f => Take.answer (puller f)) hargs rfl (Take.resets {})
        (Take.walks hpulls hargs) hb htask (fun _ => trivial) fun _ => rfl
    | _ => exact htask.elim
  | drop skipped =>
    cases task with
    | drop first =>
      obtain rfl := hunbegun
      exact answerList_count_along hrewinds (fun f => Drop.answer (puller f)) hargs rfl (Drop.resets false)
        (Drop.walks hpulls hargs) hb htask (fun _ => trivial) fun _ => rfl
    | _ => exact htask.elim
  | tail started =>
    cases task with
    | tail first =>
      obtain rfl := hunbegun
      exact answerList_count_along hrewinds (fun f => Tail.answer (puller f)) hargs rfl (Tail.resets false)
        (Tail.walks hpulls hargs) hb htask (fun _ => trivial) fun _ => rfl
    | _ => exact htask.elim
  | init state =>
    cases task with
    | init first =>
      obtain rfl := hunbegun
      exact answerList_count_along hrewinds (fun f => Init.answer (puller f)) hargs rfl (Init.resets {})
        (Init.walks hpulls hargs) hb htask (fun _ => trivial) fun _ => rfl
    | _ => exact htask.elim
  | reverse state =>
    cases task with
    | reverse first => exact answerList_count_reverse hpulls hargs hunbegun hb htask
    | _ => exact htask.elim
  | pick choice item =>
    cases task with
    | pick => exact hsimple.elim
    | _ => exact htask.elim
  | _ => cases hkind

theorem answerList_count_suspended (hpulls : Pulls feed n) (hrewinds : Rewinds feed n) (h : Tallies feed n)
    (hargs : b.Unpulled) (htask : task.Unbegun) (hkind : v.kind = .lst)
    (hat : (b.suspend task).At feed seen k v) :
    Tallied feed n seen (b.suspend task) k v := by
  have hsimply (hsimple : task.IsSimple) : Tallied feed n seen (b.suspend task) k v := by
    obtain ⟨b', places, task', rfl, hb, htask'⟩ := hat.exists_task hsimple
    exact answerList_count_task hpulls hrewinds h hargs htask hsimple hkind hb htask'
  rw [hat.kind_eq] at hkind
  cases task with
  | pick choice item =>
    obtain rfl := htask
    obtain ⟨b', item, rfl, hs⟩ := hat.exists_placed
    refine answerList_count_pick hpulls h hargs ?_ hs
    cases hty : b.ty.kind <;> simp [Bound.suspend, Value.kind, Task.kind, hty] at hkind ⊢
  | join => cases hkind
  | _ => exact hsimply trivial

theorem answerList_count_recast (h : Tallies feed n) {source source' : Value} {position : Nat} (hsource : source.Unpulled)
    (hat : source.At feed seen k source') (hstep : Recast.InStep ty k position) :
    Tallied feed n seen (Value.recast ty source 0) k (.recast ty source' position) := by
  refine Lands.congr (within (source', position) (fun s => .recast ty s.1 s.2) (onFirst (puller n).count))
    (.within (.onFirst ((h hsource hat).imp id ?_ fun _ _ _ _ => id))) fun _ => rfl
  rintro seen' c v - ⟨hcounts, effect, heffect, hleaves⟩
  have hlist : (ListView.ofValue (.recast ty source 0)).Counts feed c := hcounts.mapped _
  cases effect with
  | stays => exact .of_ofValue rfl hlist (.recast heffect (by rintro ⟨⟩)) (.recast hleaves hstep)
  | rewinds =>
    by_cases hstart : Recast.InStep ty 0 position
    · exact .of_ofValue rfl hlist (.recast heffect fun _ => hstart) (.recast hleaves hstart)
    · exact .of_ofValue rfl hlist (.outOfStep heffect hstart) trivial
  | strays => exact .of_ofValue rfl hlist (.recast heffect (by rintro ⟨⟩)) trivial

theorem answerList_count_defined (h : Tallies feed n) {doc : String} {value value' : Value} (hvalue : value.Unpulled)
    (hkind : value.kind = .lst) (hat : value.At feed seen k value') :
    Tallied feed n seen (Value.defined name doc value) k (.defined name doc value') := by
  refine Lands.congr (within value' (.defined name doc) (puller n).count)
    (.within ((h hvalue hat).imp id ?_ fun _ _ _ _ => id)) fun _ => rfl
  rintro seen' c v - ⟨hcounts, effect, heffect, hleaves⟩
  have hlist : (ListView.ofValue (.defined name doc value)).Counts feed c := hcounts
  refine .of_ofValue hkind hlist (.defined name doc heffect) ?_
  cases effect with
  | stays => exact .defined hleaves
  | rewinds => exact .defined hleaves
  | strays => trivial

theorem answerList_count (hpulls : Pulls feed n) (hrewinds : Rewinds feed n) (h : Tallies feed n)
    (hlist : list.Unpulled) (hkind : v.kind = .lst) (hat : list.At feed seen k v) :
    Tallied feed n seen list k v := by
  cases list with
  | list elements items position =>
    obtain ⟨-, rfl⟩ := hlist
    cases hat with
    | list _ _ hitems =>
      rename_i items'
      have hlength := Value.length_eq_of_copyAll_eq hitems
      refine Lands.congr _ (.pure (a := items'.length) ?_) fun _ => rfl
      rw [hlength]
      exact .of_ofValue rfl (ListView.counts_ofItems items) (.list ..) (.list elements k hitems)
  | recast ty source position =>
    obtain ⟨hsource, rfl⟩ := hlist
    cases hat with
    | recast hat hstep => exact answerList_count_recast h hsource hat hstep
  | clusters source cutter =>
    cases hat with
    | clusters => exact answerList_count_cut fun w => ⟨_, _, rfl⟩
  | defined name doc value =>
    rw [hat.kind_eq] at hkind
    cases hat with
    | defined hat => exact answerList_count_defined h (show value.Unpulled from hlist) hkind hat
  | suspended name ty args task => exact answerList_count_suspended (b := ⟨name, ty, args⟩) hpulls hrewinds h hlist.1 hlist.2 hkind hat
  | _ =>
    rw [hat.kind_eq] at hkind
    cases hkind

end Answers

theorem tallies (feed : Feed) (n : Nat) : Tallies feed n := by
  induction n with
  | zero => exact fun _ _ _ _ => trivial
  | succ n h =>
    intro seen list k v hlist hat
    exact Lands.pull (fun _ => trivial) fun hkind =>
      answerList_count (pulls feed n) (rewinds feed n) h hlist hkind hat

end PullScript
