import PullScript.Proofs.View.Numbers

namespace PullScript

open Act

variable {σ : Type} {feed : Feed} {n : Nat} {seen : Reach}

namespace TextView

/-- A text that answers as it is seen, `P` saying which states are at a place and `O` which are over. -/
structure Answers (feed : Feed) (n : Nat) (t : TextView) (P : Reach → Nat → σ → Prop)
    (O : Reach → σ → Prop) (answer : Nat → (ask : TextAsk) → Act σ ask.Reply) : Prop where
  streams : t.Streams feed n P O (fun k => answer k .ended) fun k => answer k .stream
  drain : ∀ {seen s}, P seen 0 s →
    Tracks feed n seen s (fun k => answer k .drain) t.whole fun seen' all _ s' bytes =>
      bytes = all ∧ ∃ i, P seen' i s'

variable {t : TextView} {P : Reach → Nat → σ → Prop} {O : Reach → σ → Prop}
  {answer : Nat → (ask : TextAsk) → Act σ ask.Reply}

theorem Streams.answers (h : t.Streams feed n P O (fun k => answer k .ended) fun k => answer k .stream)
    (hdrain : ∀ k, answer k .drain = drainBySteps k (answer k .ended) (answer k .stream)) :
    t.Answers feed n P O answer where
  streams := h
  drain hs := by
    simp only [hdrain]
    refine (h.drain hs (.refl 0)).imp ?_
    rintro seen' all _ s' bytes - - ⟨rfl, hs'⟩
    exact ⟨rfl, hs'⟩

theorem Answers.imp {O' : Reach → σ → Prop} (h : t.Answers feed n P O answer)
    (hO : ∀ seen s, O seen s → O' seen s) : t.Answers feed n P O' answer where
  streams := ⟨fun hs => (h.streams.endedOver hs).imp fun _ _ _ _ _ ⟨hs', hover⟩ => ⟨hs', fun he => hO _ _ (hover he)⟩,
    h.streams.stream⟩
  drain := h.drain

variable {m : View Bytes}

theorem once_next_zero (m : View Bytes) : (once m).next 0 = m >>= fun bytes => pure (some bytes) :=
  rfl

theorem once_next_one (m : View Bytes) : (once m).next 1 = pure none :=
  rfl

theorem once_runs {bytes : Bytes} (h : m.Gives feed bytes) : (once m).Runs feed 0 1 bytes :=
  .single (h.bind (.pure _))

theorem once_whole_gives {bytes : Bytes} (h : m.Gives feed bytes) : (once m).whole.Gives feed bytes := by
  have hstops : (once m).Stops feed (fun _ => false) 1 bytes := .inr (.pure _)
  obtain ⟨least, hleast, ⟨henough, -⟩ | ⟨-, rfl, -⟩⟩ := readUntil_gives (once_runs h) hstops
  · cases henough
  · exact hleast

theorem once_whole_shows {x : Except Error Bytes} (h : m.Shows feed x) : (once m).whole.Shows feed x := by
  cases x with
  | ok bytes => exact once_whole_gives h
  | error error =>
    have hnext : ((once m).next 0).Fails feed error := View.Fails.bind (m := m) h
    exact loop_readRound_fails [] (fun _ _ => id) (.refl 0) rfl hnext

theorem run_of_once_whole {viewer : Viewer} {x : Except Error Bytes} (h : (once m).whole.run viewer = some x) :
    m.run viewer = some x := by
  change View.rounds _ viewer viewer.fuel (0, []) = some x at h
  generalize viewer.fuel = fuel at h
  obtain _ | fuel := fuel
  · cases h
  · rw [View.rounds, readRound_of_not_enough rfl, once_next_zero, View.run_bind, View.run_bind] at h
    rcases hm : m.run viewer with _ | _ | bytes
    · simp [hm] at h
    · simpa [hm] using h
    · simp only [hm, Option.bind_some, View.andThen, View.run_pure] at h
      obtain _ | fuel := fuel
      · cases h
      · rw [View.rounds, readRound_of_not_enough rfl, once_next_one] at h
        exact h

end TextView

section Once

variable [Holder σ] [Inhabited σ] {m : View Bytes} {produce : Nat → Act σ Bytes}
  {Ready Done : Reach → σ → Prop}

/-- A text of one chunk and what it is made from, which is done with once the text is known. -/
structure Once.Stands (feed : Feed) (m : View Bytes) (Ready Done : Reach → σ → Prop)
    (seen : Reach) (i : Nat) (s : σ × Once) : Prop where
  place : s.2.At feed m i
  done : Done seen s.1
  ready : s.2.known = none → Ready seen s.1

variable (hproduce : ∀ {seen s}, Ready seen s →
  Tells feed n seen s produce m fun seen' _ s' => Done seen' s')
include hproduce

theorem Once.bytes_tells {s : σ} {once : Once} {i : Nat} (h : Once.Stands feed m Ready Done seen i (s, once)) :
    Tells feed n seen (s, once) (fun k => Once.bytes (produce k)) m fun seen' all s' =>
      Done seen' s'.1 ∧ s'.2 = { once with known := some all } := by
  refine Tells.look ?_
  cases hknown : once.known with
  | some all =>
    refine Tracks.given (h.place.2 all hknown) (Tells.pure ⟨h.done, ?_⟩)
    rw [← hknown]
  | none =>
    refine Tracks.andThen (Tells.onFirst (hproduce (h.ready hknown))) ?_
    rintro seen' all _ _ _ - - ⟨rfl, rfl, s', rfl, hs'⟩
    exact Tracks.afterChange (Tells.pure ⟨hs', rfl⟩)

theorem Once.serve_tracks {s : σ} {once : Once} {i : Nat} (h : Once.Stands feed m Ready Done seen i (s, once)) :
    Tracks feed n seen (s, once) (fun k => Once.serve (produce k)) m fun seen' all _ s' bytes =>
      bytes = all ∧ Once.Stands feed m Ready Done seen' 1 s' := by
  refine Tracks.andThen (Once.bytes_tells hproduce h) ?_
  rintro seen' all _ ⟨s', once'⟩ _ - hall ⟨rfl, rfl, hs', rfl⟩
  refine Tracks.afterWrite (Tracks.change ⟨List.append_nil _, ⟨.inr ⟨rfl, rfl⟩, ?_⟩, hs', nofun⟩)
  rintro _ ⟨⟩
  exact hall

theorem Once.answers (take : Nat → Act σ (Option Value.Numeric)) :
    (TextView.once m).Answers feed n (Once.Stands feed m Ready Done) (fun _ s => s.2.served = true)
      fun k => Once.answer (produce k) (take k) where
  streams := {
    endedOver := by
      rintro seen i ⟨s, known, _ | _⟩ h
      · obtain ⟨⟨-, rfl⟩ | ⟨⟨⟩, -⟩, -⟩ := h.place
        exact Tells.look (Tells.pure ⟨h, nofun⟩)
      · obtain ⟨⟨⟨⟩, -⟩ | ⟨-, rfl⟩, -⟩ := h.place
        exact Tells.look (Tells.pure ⟨h, fun _ => rfl⟩)
    stream := by
      rintro seen i ⟨s, known, _ | _⟩ h
      · obtain ⟨⟨-, rfl⟩ | ⟨⟨⟩, -⟩, -⟩ := h.place
        rw [TextView.once_next_zero]
        refine Tracks.look ((Once.serve_tracks hproduce h).mapped ?_)
        rintro seen' all _ s' _ - hall ⟨rfl, hs'⟩
        exact ⟨1, Nat.one_pos, TextView.once_runs hall, hs'⟩
      · obtain ⟨⟨⟨⟩, -⟩ | ⟨-, rfl⟩, -⟩ := h.place
        rw [TextView.once_next_one]
        exact Tracks.look (Tracks.pure ⟨rfl, h⟩) }
  drain := by
    rintro seen ⟨s, once⟩ h
    refine ((Once.serve_tracks hproduce h).view (fun _ => TextView.once_whole_shows) fun _ =>
      TextView.run_of_once_whole).imp ?_
    exact fun _ _ _ _ _ _ _ ⟨hbytes, hs'⟩ => ⟨hbytes, 1, hs'⟩

end Once

theorem answerLiteral_answers (bytes : Bytes) :
    (TextView.once (pure bytes)).Answers feed n (fun _ i (read : Bool) => i = read.toNat) (fun _ read => read = true)
      fun _ => answerLiteral bytes where
  streams := {
    endedOver := by
      rintro seen _ (_ | _) rfl
      · exact Tells.look (Tells.pure ⟨rfl, id⟩)
      · exact Tells.look (Tells.pure ⟨rfl, id⟩)
    stream := by
      rintro seen _ (_ | _) rfl
      · refine Tracks.look (Tracks.afterWrite (Tracks.put (b := some bytes) ?_))
        have hruns : (TextView.once (pure bytes)).Runs feed 0 1 bytes :=
          TextView.once_runs (.pure _)
        exact ⟨1, Nat.one_pos, by simpa using hruns, rfl⟩
      · exact Tracks.look (Tracks.pure (b := none) ⟨rfl, rfl⟩) }
  drain := by
    intro seen read hread
    have hall : (TextView.once (pure bytes)).whole.Gives feed bytes :=
      TextView.once_whole_gives (.pure _)
    exact Tracks.given hall (Tracks.afterWrite (Tracks.put ⟨List.append_nil _, 1, rfl⟩))

theorem TextView.ofParts_next (parts : List Bytes) (i : Nat) :
    (TextView.ofParts parts).next i = pure parts[i]? := by
  by_cases hi : parts.length ≤ i
  · simp [next, ofParts, hi]
  · obtain ⟨part, hpart⟩ : ∃ part, parts[i]? = some part := ⟨_, List.getElem?_eq_getElem (by omega)⟩
    simp only [next, ofParts, hi, hpart, decide_false]
    rfl

theorem answerChunks_answers (parts : List Bytes) :
    (TextView.ofParts parts).Answers feed n
      (fun _ i (position : Nat) => i = position ∧ position ≤ parts.length)
      (fun _ position => parts.length ≤ position) fun k => answerChunks k parts := by
  refine TextView.Streams.answers ⟨?_, ?_⟩ fun _ => rfl
  · rintro seen position _ ⟨rfl, hposition⟩
    exact Tells.look (Tells.pure ⟨⟨rfl, hposition⟩, of_decide_eq_true⟩)
  · rintro seen position _ ⟨rfl, hposition⟩
    rw [TextView.ofParts_next]
    refine Tracks.look ?_
    cases hpart : parts[position]? with
    | none => exact Tracks.pure ⟨rfl, rfl, hposition⟩
    | some part =>
      have hlt := (List.getElem?_eq_some_iff.1 hpart).1
      have hnext : ((TextView.ofParts parts).next position).Gives feed (some part) := by
        rw [TextView.ofParts_next, hpart]
        exact .pure _
      refine Tracks.afterWrite (Tracks.change ⟨position + 1, Nat.lt_succ_self _, ?_, rfl, hlt⟩)
      simpa using TextView.Runs.single hnext

namespace TextView

variable {stock : Stock} {i j : Nat}

theorem ofStock_ended_of_lt (h : i < stock.bytes.length) : (ofStock stock).ended i = pure false := by
  simp [ofStock, h]

theorem ofStock_next_of_lt (h : i < stock.bytes.length) :
    (ofStock stock).next i = pure (some [stock.bytes[i]]) := by
  simp only [next, ofStock, h, if_true, List.getElem?_eq_getElem h]
  rfl

theorem ofStock_runs (hij : i ≤ j) (hj : j ≤ stock.bytes.length) :
    (ofStock stock).Runs feed i j ((stock.bytes.drop i).take (j - i)) := by
  induction hij using Nat.decreasingInduction with
  | self => simpa using Runs.refl j
  | of_succ i hi ih =>
    have hlt : i < stock.bytes.length := by omega
    have hnext : ((ofStock stock).next i).Gives feed (some [stock.bytes[i]]) := by
      rw [ofStock_next_of_lt hlt]
      exact .pure _
    have hsize : j - i = j - (i + 1) + 1 := by omega
    rw [List.drop_eq_getElem_cons hlt, hsize, List.take_succ_cons]
    exact .step hnext ih

theorem ofStock_next_of_ended (hi : ¬ i < stock.bytes.length) (h : stock.broken = none) :
    (ofStock stock).ended i = pure true ∧ (ofStock stock).next i = pure none := by
  simp [next, ofStock, hi, h]

theorem ofStock_next_of_broken {message : String} (hi : ¬ i < stock.bytes.length) (h : stock.broken = some message) :
    (ofStock stock).ended i = View.fail (.io message) ∧ (ofStock stock).next i = View.fail (.io message) := by
  simp only [next, ofStock, hi, h, if_false, true_and]
  rfl

end TextView

theorem World.Stocked.filled {w : World} (hw : w.Stocked feed seen) {tap : Nat} {t : Tap} (out : Sink)
    (hout : out.limit = none) (hstock : t.stock = (w.tapAt tap).stock) (hupto : (w.tapAt tap).upto ≤ t.upto) :
    World.Stocked feed (fun other => if other = tap then t.upto else seen other)
      { w.withTap tap t with out } := by
  have hfilled := (hw.withTap hstock hupto).redirect hout
  refine ⟨hfilled.stock, fun other => ?_, hout⟩
  by_cases hother : other = tap
  · subst hother
    rw [if_pos rfl]
    exact Nat.le_of_eq (World.upto_tapAt_withTap hstock hupto).symm
  · rw [if_neg hother]
    exact hfilled.seen other

/-- What asking a reader for a copy comes to, by what the reader has in stock. -/
inductive World.Asked (feed : Feed) (w : World) (tap offset : Nat) : Prop
  | more (t : Tap) : offset < (feed tap).bytes.length → (w.tapAt tap).fillFor offset = (t, none) →
    t.stock = (w.tapAt tap).stock → (w.tapAt tap).upto ≤ t.upto → offset < t.upto → Asked feed w tap offset
  | ended (t : Tap) : ¬ offset < (feed tap).bytes.length → (feed tap).broken = none →
    (w.tapAt tap).fillFor offset = (t, none) → t.stock = (w.tapAt tap).stock → t.upto = offset →
    (w.tapAt tap).upto = offset → t.ended = true → Asked feed w tap offset
  | broken (t : Tap) (message : String) : ¬ offset < (feed tap).bytes.length → (feed tap).broken = some message →
    (w.tapAt tap).fillFor offset = (t, some message) → Asked feed w tap offset

theorem World.Stocked.asked {w : World} (hw : w.Stocked feed seen) {tap offset : Nat} (h : offset ≤ seen tap) :
    World.Asked feed w tap offset := by
  have hstock := hw.stock tap
  obtain ⟨t, hfill, hsame, hupto, hlt⟩ | ⟨t, hfill, hsame, hthere, hwas, hended, hlength, hwhole⟩ |
    ⟨t, message, hfill, hlength, hbroken⟩ := (w.tapAt tap).refilled (Nat.le_trans h (hw.seen tap))
  · refine .more t ?_ hfill hsame hupto hlt
    rw [← hstock, ← hsame]
    exact Nat.lt_of_lt_of_le hlt t.upto_le_stock
  · rw [hstock] at hlength hwhole
    exact .ended t (by omega) hwhole hfill hsame hthere hwas hended
  · rw [hstock] at hlength hbroken
    exact .broken t message (by omega) hbroken hfill

def AtEnd (feed : Feed) (tap : Nat) (seen : Reach) (offset : Nat) : Prop :=
  (feed tap).broken = none ∧ offset = (feed tap).bytes.length ∧ offset ≤ seen tap

theorem answerInput_ended_tells {tap offset : Nat} (hseen : offset ≤ seen tap) :
    Tells feed n seen offset (fun _ => answerInput.ended tap) ((TextView.ofStock (feed tap)).ended offset)
      fun seen' e offset' => (offset = offset' ∧ offset' ≤ seen' tap) ∧ (e = true → AtEnd feed tap seen' offset') := by
  by_cases hlt : offset < (feed tap).bytes.length
  · rw [TextView.ofStock_ended_of_lt hlt]
    refine Tracks.ofPure fun w hw => ?_
    cases hw.asked hseen with
    | more t _ hfill hsame hupto hoffset =>
      refine ⟨seen, false, offset, w.withTap tap t, [], fun _ => ?_, ⟨.refl seen, hw.withTap hsame hupto, ?_⟩,
        rfl, rfl, ⟨rfl, hseen⟩, nofun⟩
      · simp [answerInput_ended_run, hfill, Tap.atEnd, Nat.not_le.2 hoffset]
      · exact (List.append_nil _).symm
    | ended t hnot => exact absurd hlt hnot
    | broken t message hnot => exact absurd hlt hnot
  · cases hbroken : (feed tap).broken with
    | some message =>
      rw [(TextView.ofStock_next_of_broken hlt hbroken).1]
      refine Tracks.ofFail (View.fails_fail_iff.2 rfl) fun w hw => ?_
      cases hw.asked hseen with
      | more t h => exact absurd h hlt
      | ended t _ hwhole => simp [hbroken] at hwhole
      | broken t message' _ hbroken' hfill =>
        obtain rfl := Option.some.inj (hbroken.symm.trans hbroken')
        exact ⟨_, fun _ => by rw [answerInput_ended_run, hfill]⟩
    | none =>
      rw [(TextView.ofStock_next_of_ended hlt hbroken).1]
      refine Tracks.ofPure fun w hw => ?_
      cases hw.asked hseen with
      | more t h => exact absurd h hlt
      | ended t _ _ hfill hsame hthere hwas hended =>
        have hlength : offset = (feed tap).bytes.length := by
          have hle := (w.tapAt tap).upto_le_stock
          rw [hw.stock tap] at hle
          omega
        refine ⟨seen, true, offset, w.withTap tap t, [], fun _ => ?_,
          ⟨.refl seen, hw.withTap hsame (by omega), ?_⟩, rfl, rfl, ⟨rfl, hseen⟩, fun _ => ⟨hbroken, hlength, hseen⟩⟩
        · simp [answerInput_ended_run, hfill, Tap.atEnd, hthere, hended]
        · exact (List.append_nil _).symm
      | broken t message _ hwrong => simp [hbroken] at hwrong

theorem answerInput_stream_tracks {tap offset : Nat} (hseen : offset ≤ seen tap) :
    Tracks feed n seen offset (fun _ => answerInput.stream tap) ((TextView.ofStock (feed tap)).next offset)
      ((TextView.ofStock (feed tap)).Streamed feed (fun seen i offset => i = offset ∧ offset ≤ seen tap) offset) := by
  -- The world after streaming when the tap was filled to `t`.
  have stream : ∀ {w : World} {t : Tap}, w.Stocked feed seen → (w.tapAt tap).fillFor offset = (t, none) →
      t.stock = (w.tapAt tap).stock → (w.tapAt tap).upto ≤ t.upto → offset ≤ t.upto →
      ∃ seen' w', answerInput.stream tap (offset, w) = .ok () (t.upto, w') ∧
        w.Moves feed seen seen' w' (((feed tap).bytes.drop offset).take (t.upto - offset)) ∧
        t.upto ≤ seen' tap := by
    intro w t hw hfill hsame hupto hoffset
    have hrun := answerInput_stream_run tap offset w
    simp only [hfill, Sink.write_of_limit_none hw.room] at hrun
    refine ⟨_, _, hrun, ⟨fun other => ?_, hw.filled _ hw.room hsame hupto, ?_⟩, Nat.le_of_eq (if_pos rfl).symm⟩
    · split
      case isTrue hother =>
        subst hother
        exact Nat.le_trans (hw.seen _) hupto
      case isFalse => exact Nat.le_refl _
    · rw [t.after_eq_stock hoffset, hsame, hw.stock]
      simp [Sink.bytes]
  by_cases hlt : offset < (feed tap).bytes.length
  · rw [TextView.ofStock_next_of_lt hlt]
    refine Tracks.ofPure fun w hw => ?_
    cases hw.asked hseen with
    | more t _ hfill hsame hupto hoffset =>
      obtain ⟨seen', w', hrun, hmoves, hthere⟩ := stream hw hfill hsame hupto (Nat.le_of_lt hoffset)
      have hend : t.upto ≤ (feed tap).bytes.length := by
        rw [← hw.stock tap, ← hsame]
        exact t.upto_le_stock
      exact ⟨seen', (), t.upto, w', _, fun _ => hrun, hmoves, t.upto, hoffset,
        TextView.ofStock_runs (Nat.le_of_lt hoffset) hend, rfl, hthere⟩
    | ended t hnot => exact absurd hlt hnot
    | broken t message hnot => exact absurd hlt hnot
  · cases hbroken : (feed tap).broken with
    | some message =>
      rw [(TextView.ofStock_next_of_broken hlt hbroken).2]
      refine Tracks.ofFail (View.fails_fail_iff.2 rfl) fun w hw => ?_
      cases hw.asked hseen with
      | more t h => exact absurd h hlt
      | ended t _ hwhole => simp [hbroken] at hwhole
      | broken t message' _ hbroken' hfill =>
        obtain rfl := Option.some.inj (hbroken.symm.trans hbroken')
        exact ⟨_, fun _ => by rw [answerInput_stream_run, hfill]⟩
    | none =>
      rw [(TextView.ofStock_next_of_ended hlt hbroken).2]
      refine Tracks.ofPure fun w hw => ?_
      cases hw.asked hseen with
      | more t h => exact absurd h hlt
      | ended t _ _ hfill hsame hthere hwas hended =>
        obtain ⟨seen', w', hrun, hmoves, hfar⟩ := stream hw hfill hsame (by omega) (by omega)
        rw [hthere] at hrun hfar
        exact ⟨seen', (), offset, w', _, fun _ => hrun, hmoves, by simp [hthere], rfl, hfar⟩
      | broken t message _ hwrong => simp [hbroken] at hwrong

theorem answerInput_answers (tap : Nat) :
    (TextView.ofStock (feed tap)).Answers feed n (fun seen i (offset : Nat) => i = offset ∧ offset ≤ seen tap)
      (AtEnd feed tap) fun k => answerInput k tap := by
  refine TextView.Streams.answers ⟨?_, ?_⟩ fun _ => rfl
  · rintro seen offset _ ⟨rfl, hseen⟩
    exact answerInput_ended_tells hseen
  · rintro seen offset _ ⟨rfl, hseen⟩
    exact answerInput_stream_tracks hseen

end PullScript
