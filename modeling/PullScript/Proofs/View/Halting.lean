import PullScript.Proofs.View.Fronts

namespace PullScript

open Act

variable {σ α : Type} {feed : Feed} {n i : Nat} {seen : Reach} {value value' : Value} {b b' : Bound}
variable {source : Value} {produce : Act σ Bytes} {P : Reach → Nat → σ → Prop} {O : Reach → σ → Prop}
  {L : Nat → Bytes → Prop} {ask : TextAsk} {inner : Nat → (ask : TextAsk) → Act σ ask.Reply}

section

variable (h : Halts feed n)
include h

theorem Joiner.ofArgs_known_spills (separator : Bytes) (i : Nat) {joiner : Joiner Value} {places : Nat → Nat}
    (hargs : b.Unpulled) (hb : b.At feed seen places b') (hsource : b.args[1]? = some source)
    (hs : ∀ source', source.At feed seen (places 1) source' → Joiner.Placed feed source separator seen i (joiner, source')) :
    Spills feed n seen (b', some joiner)
      (fun f => do
        let source ← onFirst (Bound.arg 1)
        let (b, joiner) ← look
        within (joiner.getD { separator := [] }, source)
          (fun (joiner, source) => ({ b with args := b.args.set 1 source }, some joiner)) (Joiner.stream (puller f)))
      fun k p => JoinPlace.LeadsAt feed source separator (Value.Leads feed k) i p := by
  obtain ⟨source', hsource', hat⟩ := hb.exists_getElem? hsource
  have hstream : Spills feed n seen (b', some joiner)
      (fun f => within (joiner, source')
        (fun s => ({ b' with args := b'.args.set 1 s.2 }, some s.1)) (Joiner.stream (puller f))) _ :=
    (Joiner.stream_spills h (hargs.getElem? hsource) (hs source' hat)).within
  refine hstream.congr fun f w _ => ?_
  rw [bind_run, Bound.onFirst_arg_of_some hsource']
  rfl

theorem Joiner.answerJoin_spills (hargs : b.Unpulled) {s : Bound × Option (Joiner Value)}
    (hs : Joiner.JoinPlaced feed b seen i s) :
    Spills feed n seen s (fun f => Joiner.ofArgs (puller f) (Joiner.stream (puller f))) fun k p =>
      ∃ separator, (View.argBytes b 0).Gives feed separator ∧
        ∃ source, b.args[1]? = some source ∧ JoinPlace.LeadsAt feed source separator (Value.Leads feed k) i p := by
  obtain ⟨b', _ | joiner⟩ := s
  · obtain ⟨rfl, places, hplaces, hb⟩ := hs
    refine Spills.look (Spills.bind (fun k => Tells.onFirst ((pulls feed k).bytesArg hargs hb (hplaces 0)))
      (fun k => (Bound.on_steps 0 (readAll_steps (steady_puller k))).onFirst.quiet_run) ?_)
    rintro seen' _ separator _ _ - hseparator ⟨rfl, rfl, b'', rfl, j, hb''⟩
    refine Spills.afterChange ?_
    cases hsource : b.args[1]? with
    | none =>
      refine (Spills.failed (.runtime (.missingArgument b''.name 2)) fun f w => ?_).iff fun k p => by simp
      rw [bind_run, Bound.onFirst_arg_of_none (hb''.getElem?_eq_none hsource)]
    | some source =>
      have hindex : Function.update places 0 j 1 = 0 := by
        rw [Function.update_of_ne (by decide)]
        exact hplaces 1
      refine (Joiner.ofArgs_known_spills h separator 0 hargs hb'' hsource fun source' hat => ?_).iff fun k p => by simp
      exact ⟨_, source, 0, .pure _, hindex ▸ hat, nofun, .start separator source⟩
  · obtain ⟨places, source, separator, place, text, p, hb, hsource, hseparator, hplace, hindex, hitem, hjoiner⟩ := hs
    refine Spills.look (Spills.known hseparator ?_)
    refine (Joiner.ofArgs_known_spills h separator i hargs hb hsource fun source' hat => ?_).iff fun k p => by simp [hsource]
    exact ⟨place, text, p, hplace, hindex ▸ hat, hitem, hjoiner⟩

omit h in
theorem Choice.onItem_spills (hargs : b.Unpulled) (hkind : b.ty.kind ≠ .arrow) {choice : Choice}
    {s : Bound × Option Value} (hs : choice.Placed feed b seen i s) {act : Nat → Act Value α}
    {L : Value → Nat → Bytes → Prop}
    (hact : ∀ {seen item item'}, item.Unpulled → item.At feed seen i item' → Spills feed n seen item' act (L item)) :
    Spills feed n seen s (fun f => choice.onItem (puller f) (act f)) fun k p =>
      ∃ item, (choice.view b).Gives feed item ∧ L item k p := by
  have hview : choice.view b = choice.chosen b >>= fun item => .coerced item (Choice.target b.ty) := by
    rw [Choice.view, if_neg hkind]
  obtain ⟨b', _ | item'⟩ := s
  · obtain ⟨places, hb, -, rfl, hplaces⟩ := hs
    have hfound : Spills feed n seen (b', none) (fun f => choice.onItem (puller f) (act f)) fun k p =>
        ∃ found, (choice.chosen b).Gives feed found ∧
          ∃ item, (View.coerced found (Choice.target b.ty)).Gives feed item ∧ L item k p := by
      refine Spills.look (Spills.bind (fun k => Tells.onFirst (Choice.find_tells (pulls feed k) hargs hb hplaces choice))
        (fun k => (Choice.find_steps (steady_puller k) choice).onFirst.quiet_run) ?_)
      rintro seen' _ found _ _ - hfound ⟨rfl, rfl, b'', rfl, places', hb'⟩
      have hunpulled := hfound.chosen_unpulled hargs
      refine Spills.look ?_
      rw [show b''.ty = b.ty from hb'.ty_eq]
      refine Spills.bind (fun k => coerce_tells (pulls feed k) hunpulled (Choice.target b.ty))
        (fun k => (coerce_steps (steady_puller k) found _).quiet_run) ?_
      rintro seen'' _ item _ _ - hitem ⟨rfl, rfl, rfl⟩
      have hunpulled' := View.Gives.coerced_unpulled hunpulled hitem
      exact Spills.afterChange (Spills.look (hact hunpulled' hunpulled'.at_start).within)
    refine hfound.iff fun k p => ?_
    simp only [hview, View.gives_bind_iff]
    constructor
    · rintro ⟨item, ⟨found, hfound, hitem⟩, hp⟩
      exact ⟨found, hfound, item, hitem, hp⟩
    · rintro ⟨found, hfound, item, hitem, hp⟩
      exact ⟨item, ⟨found, hfound, hitem⟩, hp⟩
  · obtain ⟨places, hb, -, item, hitem, hat⟩ := hs
    exact Spills.look (Spills.known hitem (Spills.look (hact (hitem.choice_unpulled hargs) hat).within))

end

theorem Once.serve_late [Holder σ] [Inhabited σ] (h : Usual false produce) : Late (Once.serve produce) :=
  .bind (Once.bytes_steps h).quiet_run fun bytes => (Late.write bytes).andThen fun _ _ => ⟨(), _, rfl⟩

theorem Once.answer_late [Holder σ] [Inhabited σ] (h : Usual false produce) (take : Act σ (Option Value.Numeric)) :
    Late (Once.answer produce take .stream) := by
  refine .bind (fun _ _ _ => rfl) fun s => ?_
  split
  · exact .pure ()
  · exact Once.serve_late h

theorem answerLiteral_late (bytes : Bytes) : Late (answerLiteral bytes .stream) := by
  refine .bind (fun _ _ _ => rfl) fun read => ?_
  split
  · exact .pure ()
  · exact (Late.write bytes).andThen fun _ _ => ⟨(), _, rfl⟩

theorem answerChunks_late (fuel : Nat) (parts : List Bytes) : Late (answerChunks fuel parts .stream) := by
  refine .bind (fun _ _ _ => rfl) fun position => ?_
  split
  · exact (Late.write _).andThen fun _ _ => ⟨(), _, rfl⟩
  · exact .pure ()

theorem answerInput_late (fuel tap : Nat) : Late (answerInput fuel tap .stream) :=
  .bind (fun _ _ _ => rfl) fun offset => (Late.streamTap tap offset).andThen fun _ _ => ⟨(), _, rfl⟩

theorem answerEncoding_late {p : Puller} (h : p.Steady) (e : Encoding) : Late (answerEncoding p e .stream) := by
  refine .bind (Bound.on_steps 0 h.next).quiet_run fun item => ?_
  cases item with
  | none => exact .pure ()
  | some item => exact .bind (Steps.aside item h.number).quiet_run fun x => .write _

theorem Hosts.spills {inner : Nat → (ask : TextAsk) → Act σ ask.Reply}
    (hosts : Hosts feed value (fun f => answerText (puller f)) P O inner) (hat : value.At feed seen i value')
    (ask : TextAsk) (h : ∀ {s}, P seen i s → Spills feed n seen s (fun f => inner f ask) L) :
    Spills feed n seen value' (fun f => answerText (puller f) ask) L := by
  obtain ⟨s, rebuild, hs, -, -, hinside⟩ := hosts _ _ _ hat
  exact (h hs).inside (hinside ask)

structure TextHalts (feed : Feed) (n : Nat) (value : Value) : Prop where
  stream : ∀ {seen i value'}, value.At feed seen i value' →
    Spills feed n seen value' (fun f => answerText (puller f) .stream) fun k p =>
      value.LeadsBy feed (Value.Leads feed k) i p
  drain : ∀ {seen value'}, value.At feed seen 0 value' →
    Spills feed n seen value' (fun f => answerText (puller f) .drain) fun k p =>
      value.EmitsBy feed (Value.Leads feed k) (Value.Emits feed k) p

theorem Hosts.halts (hosts : Hosts feed value (fun f => answerText (puller f)) P O inner)
    (hanswers : ∀ k, (TextView.ofValue feed value).Answers feed k P O inner)
    (hsteps : ∀ k ask, Usual ask.loud (inner k ask))
    (hdrain : ∀ k, inner k .drain = drainBySteps k (inner k .ended) (inner k .stream))
    (hspills : ∀ {seen i s}, P seen i s → Spills feed n seen s (fun f => inner f .stream)
      fun k p => value.LeadsBy feed (Value.Leads feed k) i p)
    (hfronts : ∀ {k i p}, value.LeadsBy feed (Value.Leads feed k) i p → (TextView.ofValue feed value).Fronts feed i p)
    (hemits : ∀ L D, value.EmitsBy feed L D = (TextView.ofValue feed value).Emits feed (value.LeadsBy feed L)) :
    TextHalts feed n value where
  stream hat := hosts.spills hat .stream hspills
  drain hat := by
    simp only [hemits]
    refine hosts.spills hat .drain fun hs => ?_
    simp only [hdrain]
    exact TextView.drain_spills (fun k => (hanswers k).streams) (fun k => hsteps k .ended) hspills
      (fun k => hsteps k .stream) hfronts hs

theorem Hosts.halts_once [Holder σ] [Inhabited σ] {P : Reach → Nat → σ × Once → Prop}
    {O : Reach → σ × Once → Prop} {produce : Nat → Act σ Bytes} {take : Nat → Act σ (Option Value.Numeric)}
    (hosts : Hosts feed value (fun f => answerText (puller f)) P O fun f => Once.answer (produce f) (take f))
    (hproduce : ∀ k, Usual false (produce k)) (hleads : ∀ L, value.LeadsBy feed L = fun _ _ => False)
    (hemits : ∀ L D, value.EmitsBy feed L D = fun _ => False) : TextHalts feed n value where
  stream hat := by
    simp only [hleads]
    exact hosts.spills hat .stream fun _ => .late (Once.answer_late (hproduce n) (take n))
  drain hat := by
    simp only [hemits]
    exact hosts.spills hat .drain fun _ => .late (Once.serve_late (hproduce n))

theorem Value.LeadsBy.fronts {k : Nat} {p : Bytes} (h : value.LeadsBy feed (Value.Leads feed k) i p)
    (hended : ((TextView.ofValue feed value).ended i).Gives feed false) :
    (TextView.ofValue feed value).Fronts feed i p := by
  refine ⟨hended, fun chunk hchunk => ?_⟩
  obtain ⟨_, ⟨⟩, hprefix⟩ := h.isPrefix (Value.leadsWell feed k) hchunk
  exact hprefix

section

variable {b : Bound} {task : Task Value} (h : Halts feed n)
include h

theorem listText_halts (hsource : source.Unpulled) (separator : Bytes) :
    TextHalts feed n (.listText source ⟨separator, none, false⟩) :=
  (hosts_listText source separator).halts (fun k => Joiner.answers (pulls feed k) hsource separator)
    (fun k => Joiner.answer_steps (steady_puller k)) (fun _ => rfl) (fun hs => Joiner.stream_spills h hsource hs)
    (fun hp => hp.fronts (JoinPlace.LeadsAt.ended hp)) fun _ _ => rfl

theorem concat_halts (hargs : b.Unpulled) (order : List Nat) :
    TextHalts feed n (b.suspend (.concat ⟨order, order⟩)) :=
  (hosts_concat b order).halts (fun k => Concat.answers (pulls feed k) hargs order)
    (fun k => Concat.answer_steps (steady_puller k)) (fun _ => rfl)
    (fun hs => Concat.stream_spills h hargs hs)
    (fun hp => hp.fronts (ConcatPlace.LeadsAt.ended hp)) fun _ _ => rfl

theorem join_halts (hargs : b.Unpulled) : TextHalts feed n (b.suspend (.join none)) := by
  refine Hosts.halts (hosts_join fun _ _ _ _ _ => rfl)
    (fun k => Joiner.answerJoin_answers (pulls feed k) hargs)
    (fun k => Joiner.answerJoin_steps (steady_puller k)) (fun _ => rfl)
    (fun hs => Joiner.answerJoin_spills h hargs hs) (fun hp => hp.fronts ?_) fun _ _ => rfl
  obtain ⟨separator, hseparator, source, hsource, hp⟩ := hp
  refine hseparator.bind ?_
  rw [ListView.arg_eq hsource]
  exact hp.ended

theorem pick_halts (hargs : b.Unpulled) (hkind : b.ty.kind ≠ .arrow) (choice : Choice) :
    TextHalts feed n (b.suspend (.pick choice none)) := by
  have hosts : Hosts feed (b.suspend (.pick choice none)) (fun f => answerText (puller f))
      (Choice.Placed feed b choice) _ fun f => answerChosenText (puller f) choice :=
    hosts_pick fun _ _ _ _ _ => rfl
  refine ⟨fun hat => hosts.spills hat .stream fun hs => ?_, fun hat => hosts.spills hat .drain fun hs => ?_⟩
  · exact Choice.onItem_spills hargs hkind hs fun hitem hat => h.stream hitem hat
  · exact Choice.onItem_spills hargs hkind hs fun hitem hat => h.drain hitem hat

theorem suspended_halts (hargs : b.Unpulled) (htask : task.Unbegun) (hkind : task.kind b.ty = .str) :
    TextHalts feed n (b.suspend task) := by
  cases task with
  | render r once =>
    obtain rfl := htask
    exact (hosts_render b r).halts_once (fun k => Rendering.run_steps (steady_puller k) r) (fun _ => rfl) fun _ _ => rfl
  | encode e =>
    exact (hosts_encode b e).halts (fun k => answerEncoding_answers (pulls feed k) hargs e)
      (fun k => answerEncoding_steps (steady_puller k) e) (fun _ => rfl)
      (fun _ => .late (answerEncoding_late (steady_puller n) e)) False.elim fun _ _ => rfl
  | concat state =>
    obtain ⟨order, rest⟩ := state
    obtain rfl : rest = order := htask
    exact concat_halts h hargs rest
  | join joiner =>
    obtain rfl := htask
    exact join_halts h hargs
  | pick choice item =>
    obtain rfl := htask
    refine pick_halts h hargs (fun harrow => ?_) choice
    simp [Task.kind, harrow] at hkind
  | _ => cases hkind

theorem answerText_halts (hvalue : value.Unpulled) (hkind : value.kind = .str) : TextHalts feed n value := by
  cases value with
  | text bytes read =>
    obtain rfl := hvalue
    have hdrain : Late (answerLiteral bytes .drain) := (Late.write bytes).andThen fun _ _ => ⟨(), _, rfl⟩
    exact ⟨fun hat => (hosts_text bytes).spills hat .stream fun _ => .late (answerLiteral_late bytes),
      fun hat => (hosts_text bytes).spills hat .drain fun _ => .late hdrain⟩
  | chunks parts position =>
    obtain rfl := hvalue
    exact (hosts_chunks parts).halts (fun _ => answerChunks_answers parts) (fun k => answerChunks_steps k parts)
      (fun _ => rfl) (fun _ => .late (answerChunks_late n parts)) False.elim fun _ _ => rfl
  | input tap offset primary =>
    obtain rfl := hvalue
    exact (hosts_input tap primary).halts (fun _ => answerInput_answers tap) (fun k => answerInput_steps k tap)
      (fun _ => rfl) (fun _ => .late (answerInput_late n tap)) False.elim fun _ _ => rfl
  | numberText source once =>
    obtain ⟨hsource, rfl⟩ := hvalue
    cases source with
    | none => exact hsource.elim
    | some source => exact (hosts_numberText source).halts_once (fun k => numberBytes_steps (steady_puller k)) (fun _ => rfl) fun _ _ => rfl
  | listText source joiner =>
    obtain ⟨separator, _, _⟩ := joiner
    obtain ⟨hsource, rfl, rfl⟩ := hvalue
    exact listText_halts h hsource separator
  | defined name doc value =>
    have hosts : Hosts feed (.defined name doc value) (fun f => answerText (puller f)) _ _
        fun f ask => (puller f).pull (.text ask) := hosts_defined fun _ _ _ _ => rfl
    exact ⟨fun hat => hosts.spills hat .stream fun hs => h.stream (show value.Unpulled from hvalue) hs,
      fun hat => hosts.spills hat .drain fun hs => h.drain (show value.Unpulled from hvalue) hs⟩
  | suspended name ty args task => exact suspended_halts (b := ⟨name, ty, args⟩) h hvalue.1 hvalue.2 hkind
  | _ => cases hkind

end

theorem Spills.pull {L' : Nat → Bytes → Prop} (hat : value.At feed seen i value')
    (h : value.kind = .str → Spills feed n seen value' (fun f => answerText (puller f) ask) L)
    (hL : ∀ k p, L' (k + 1) p ↔ value.kind = .str ∧ L k p) :
    Spills feed (n + 1) seen value' (fun f => (puller f).pull (.text ask)) L' := by
  suffices hanswer : Spills feed n seen value' (fun f => answer (puller f) (.text ask)) fun k p =>
      value.kind = .str ∧ L k p from hanswer.later (fun _ _ => rfl) hL
  by_cases hkind : value.kind = .str
  · refine ((h hkind).congr fun f w _ => ?_).iff fun k p => by simp [hkind]
    have hrequired : requireFor (.text ask) (value', w) = .ok () (value', w) := by
      simp [requireFor, bind_run, hat.kind_eq, hkind, Ask.kind]
    exact bind_of_ok hrequired _
  · refine (Spills.failed (.typeMismatch value'.ty Kind.str.anyTy) fun f w => ?_).iff fun k p => by simp [hkind]
    have hrefused : requireFor (.text ask) (value', w) =
        .error (.failed (.typeMismatch value'.ty Kind.str.anyTy)) (value', w) := by
      simp [requireFor, bind_run, hat.kind_eq, hkind, Ask.kind, Ask.wantedTy]
    exact bind_of_error hrefused _

theorem Spills.zero (hL : ∀ p, ¬ L 0 p) : Spills feed 0 seen value (fun f => (puller f).pull (.text ask)) L where
  sound _ hrun := by
    cases hrun
    exact ⟨[], (List.append_nil _).symm, .inl rfl⟩
  complete _ hp := (hL _ hp).elim

theorem halts (feed : Feed) (n : Nat) : Halts feed n := by
  induction n with
  | zero => exact ⟨fun _ _ => .zero fun _ => id, fun _ _ => .zero fun _ => id⟩
  | succ n h =>
    refine ⟨fun hvalue hat => ?_, fun hvalue hat => ?_⟩
    · exact Spills.pull hat (fun hkind => (answerText_halts h hvalue hkind).stream hat) fun _ _ => .rfl
    · exact Spills.pull hat (fun hkind => (answerText_halts h hvalue hkind).drain hat) fun _ _ => .rfl

end PullScript
