import PullScript.Proofs.Limit
import PullScript.Proofs.View.Pulling

namespace PullScript

open Act

variable {σ τ α β γ : Type} {feed : Feed} {n : Nat} {seen : Reach} {s : σ}
variable {w : World} {next : α → Act σ β} {act' : Nat → Act σ α} {rebuild : σ → τ} {m : View β} {j : Nat}

theorem write_nil (hroom : w.out.limit = none) (s : σ) : write [] (s, w) = .ok () (s, w) := by
  rw [write_run, Sink.write_of_limit_none hroom]
  simp

def Late (act : Act σ α) : Prop :=
  ∀ s w stop s', w.out.limit = none → act (s, w) = .error stop s' → s'.2.out = w.out

namespace Late

theorem of_quiet {act : Act σ α} (h : Quiet act) : Late act := by
  intro s w stop s' _ hrun
  have hout := h.out_eq s w
  rwa [hrun] at hout

theorem pure (a : α) : Late (Pure.pure a : Act σ α) :=
  .of_quiet fun _ _ _ => rfl

theorem bind {act : Act σ α} (h : Quiet act) (hnext : ∀ a, Late (next a)) : Late (act >>= next) := by
  intro s w stop s' hroom hrun
  have hout := h.out_eq s w
  rw [bind_run] at hrun
  cases hact : act (s, w) with
  | error stop' s₁ =>
    rw [hact] at hrun hout
    cases hrun
    exact hout
  | ok a s₁ =>
    rw [hact] at hrun hout
    have hsame : s₁.2.out = w.out := hout
    exact (hnext a s₁.1 s₁.2 stop s' (by rw [hsame]; exact hroom) hrun).trans hsame

theorem write (bytes : Bytes) : Late (Act.write bytes : Act σ Unit) := by
  intro s w stop s' hroom hrun
  rw [write_run, Sink.write_of_limit_none hroom] at hrun
  cases hrun

theorem andThen {act : Act σ α} (h : Late act) (hnext : ∀ a s, ∃ b s', next a s = .ok b s') : Late (act >>= next) := by
  intro s w stop s' hroom hrun
  rw [bind_run] at hrun
  cases hact : act (s, w) with
  | error stop' s₁ =>
    rw [hact] at hrun
    cases hrun
    exact h s w stop s' hroom hact
  | ok a s₁ =>
    rw [hact] at hrun
    obtain ⟨b, s₂, hok⟩ := hnext a s₁
    cases hok.symm.trans hrun

theorem streamTap (tap offset : Nat) : Late (Act.streamTap tap offset : Act σ Nat) :=
  bind (.fillTap tap offset) fun t => (write _).andThen fun _ s => ⟨t.upto, (s.1, _), rfl⟩

end Late

/-- Work that stops halfway has streamed nothing or one of the fronts in `L`; and each of the fronts is streamed,
given enough fuel. By looking deeper, more fronts are seen. -/
structure Spills (feed : Feed) (n : Nat) (seen : Reach) (s : σ) (act : Nat → Act σ α)
    (L : Nat → Bytes → Prop) : Prop where
  sound : ∀ {w : World} {stop : Stop} {s' : σ × World}, w.Stocked feed seen → act n (s, w) = .error stop s' →
    ∃ p, s'.2.out.bytes = w.out.bytes ++ p ∧ (p = [] ∨ ∃ k, L k p)
  complete : ∀ {w : World} {p : Bytes}, w.Stocked feed seen → L n p →
    ∃ least, ∀ f, least ≤ f → w.out.bytes ++ p <+: (Result.world (act f (s, w))).out.bytes

namespace Spills

variable {act : Nat → Act σ α} {L L' : Nat → Bytes → Prop}

theorem late (h : Late (act n)) : Spills feed n seen s act fun _ _ => False where
  sound hw hrun := ⟨[], by rw [h s _ _ _ hw.room hrun, List.append_nil], .inl rfl⟩
  complete _ := False.elim

theorem failed (error : Error) (h : ∀ k w, act k (s, w) = .error (.failed error) (s, w)) :
    Spills feed n seen s act fun _ _ => False where
  sound _ hrun := by
    rw [h] at hrun
    cases hrun
    exact ⟨[], (List.append_nil _).symm, .inl rfl⟩
  complete _ := False.elim

theorem iff (h : Spills feed n seen s act L) (hL : ∀ k p, L' k p ↔ L k p) : Spills feed n seen s act L' where
  sound hw hrun := by
    obtain ⟨p, hp, hL'⟩ := h.sound hw hrun
    exact ⟨p, hp, hL'.imp_right fun ⟨k, hk⟩ => ⟨k, (hL k p).2 hk⟩⟩
  complete hw hp := h.complete hw ((hL n _).1 hp)

theorem along {t : τ} {act' : Nat → Act τ β} (start : World → World) (h : Spills feed n seen s act L)
    (hstart : ∀ w, w.Stocked feed seen → (start w).Stocked feed seen ∧ (start w).out = w.out)
    (hout : ∀ f w, w.out.limit = none → (Result.world (act' f (t, w))).out = (Result.world (act f (s, start w))).out)
    (herror : ∀ w stop s', w.out.limit = none → act' n (t, w) = .error stop s' → ∃ stop' s'', act n (s, start w) =
      .error stop' s'') :
    Spills feed n seen t act' L where
  sound {w stop s'} hw hrun := by
    obtain ⟨stop', s'', hact⟩ := herror w stop s' hw.room hrun
    obtain ⟨p, hp, hL⟩ := h.sound (hstart w hw).1 hact
    have hsame := hout n w hw.room
    rw [hrun, hact] at hsame
    exact ⟨p, by rw [show s'.2.out = s''.2.out from hsame, hp, (hstart w hw).2], hL⟩
  complete {w p} hw hp := by
    obtain ⟨least, hleast⟩ := h.complete (hstart w hw).1 hp
    refine ⟨least, fun f hf => ?_⟩
    rw [hout f w hw.room, ← (hstart w hw).2]
    exact hleast f hf

theorem congr (h : Spills feed n seen s act L) (heq : ∀ f w, w.out.limit = none → act' f (s, w) = act f (s, w)) :
    Spills feed n seen s act' L :=
  h.along id (fun _ hw => ⟨hw, rfl⟩) (fun f w hw => by rw [heq f w hw]; rfl)
    fun w stop s' hw hrun => ⟨stop, s', by rw [← hrun, heq n w hw]; rfl⟩

theorem look {next : Nat → σ → Act σ α} (h : Spills feed n seen s (fun k => next k s) L) :
    Spills feed n seen s (fun k => Act.look >>= next k) L :=
  h.congr fun _ _ _ => rfl

theorem afterChange {f : σ → σ} (h : Spills feed n seen (f s) act L) :
    Spills feed n seen s (fun k => change f >>= fun _ => act k) L :=
  h.along id (fun _ hw => ⟨hw, rfl⟩) (fun _ _ _ => rfl) fun _ stop s' _ hrun => ⟨stop, s', hrun⟩

theorem inside {t : τ} {outer : Nat → Act τ α} (h : Spills feed n seen s act L)
    (hinside : Nested s t rebuild act outer) : Spills feed n seen t outer L := by
  cases hinside with
  | zoom heq =>
    refine h.along id (fun _ hw => ⟨hw, rfl⟩) (fun f w _ => by rw [heq, Result.world_on]; rfl) fun w stop s' _ hrun => ?_
    rw [heq] at hrun
    obtain ⟨s₁, hact, -⟩ := Result.on_eq_error_iff.1 hrun
    exact ⟨stop, s₁, hact⟩
  | within around heq =>
    refine h.along (fun w => { w with around := around w }) (fun _ hw => ⟨hw.around _, rfl⟩)
      (fun f w _ => by rw [heq, Result.world_on]) fun w stop s' _ hrun => ?_
    rw [heq] at hrun
    obtain ⟨s₁, hact, -⟩ := Result.on_eq_error_iff.1 hrun
    exact ⟨stop, s₁, hact⟩

theorem within [Holder τ] [Inhabited σ] {t : τ} (h : Spills feed n seen s act L) :
    Spills feed n seen t (fun k => Act.within s rebuild (act k)) L :=
  h.inside (.ofWithin fun _ _ => rfl)

theorem onFirst [Holder σ] [Holder τ] [Inhabited σ] {t : τ} (h : Spills feed n seen s act L) :
    Spills feed n seen (s, t) (fun k => Act.onFirst (act k)) L :=
  look h.within

theorem aside [Holder τ] {act : Nat → Act σ Unit} (h : Spills feed n seen s act L) {t : τ} (f : σ → τ → τ) :
    Spills feed n seen t (fun k => Act.aside s (act k) >>= fun x => change (f x.2)) L := by
  refine h.along (fun w => { w with around := held t :: w.around }) (fun _ hw => ⟨hw.around _, rfl⟩)
    (fun k w _ => ?_) fun w stop s' _ hrun => ?_
  · rw [aside_change_run, holding_run]
    cases act k (s, { w with around := held t :: w.around }) <;> rfl
  · rw [aside_change_run, holding_run] at hrun
    cases hact : act n (s, { w with around := held t :: w.around }) with
    | ok a s₁ =>
      rw [hact] at hrun
      cases hrun
    | error stop' s₁ => exact ⟨stop', s₁, rfl⟩

theorem later (h : Spills feed n seen s act L) (hsucc : ∀ f w, act' (f + 1) (s, w) = act f (s, w))
    (hL : ∀ k p, L' (k + 1) p ↔ L k p) : Spills feed (n + 1) seen s act' L' where
  sound hw hrun := by
    obtain ⟨p, hp, hL'⟩ := h.sound hw (by rwa [hsucc] at hrun)
    exact ⟨p, hp, hL'.imp_right fun ⟨k, hk⟩ => ⟨k + 1, (hL k p).2 hk⟩⟩
  complete hw hp := by
    obtain ⟨least, hleast⟩ := h.complete hw ((hL n _).1 hp)
    refine ⟨least + 1, fun f hf => ?_⟩
    obtain _ | f := f
    · omega
    rw [hsucc]
    exact hleast f (by omega)

theorem bind {N : Reach → β → α → σ → Bytes → Prop} {next : Nat → α → Act σ γ} {L : β → Nat → Bytes → Prop}
    (h : ∀ k, Tracks feed k seen s act m N) (hquiet : ∀ k, Quiet (act k))
    (hnext : ∀ seen' b a s' bytes, Further seen seen' → m.Gives feed b → N seen' b a s' bytes → Spills feed n seen' s'
      (fun k => next k a) (L b)) :
    Spills feed n seen s (fun k => act k >>= next k) fun k p => ∃ b, m.Gives feed b ∧ L b k p := by
  refine ⟨fun {w stop s'} hw hrun => ?_, fun {w p} hw ⟨b, ⟨k, hb⟩, hp⟩ => ?_⟩
  · have hout := (hquiet n).out_eq s w
    rw [bind_run] at hrun
    cases hact : act n (s, w) with
    | error stop' s₁ =>
      rw [hact] at hrun hout
      cases hrun
      exact ⟨[], by rw [show s'.2.out = w.out from hout, List.append_nil], .inl rfl⟩
    | ok a s₁ =>
      rw [hact] at hrun hout
      obtain ⟨seen', b, bytes, hb, hmoves, hN⟩ := (h n).sound hw hact
      obtain ⟨p, hp, hL⟩ := (hnext seen' b a s₁.1 bytes hmoves.further hb hN).sound hmoves.stocked hrun
      exact ⟨p, by rw [hp, show s₁.2.out = w.out from hout], hL.imp_right fun ⟨k, hk⟩ => ⟨k, b, hb, hk⟩⟩
  · obtain ⟨seen', a, s', w', bytes, hcomes, hmoves, hN⟩ := (h k).complete hw hb
    obtain ⟨least, hleast⟩ := hcomes.enough
    obtain ⟨least', hleast'⟩ := (hnext seen' b a s' bytes hmoves.further ⟨k, hb⟩ hN).complete hmoves.stocked hp
    have hout := (hquiet least).out_eq s w
    rw [hleast least (Nat.le_refl _)] at hout
    refine ⟨max least least', fun f hf => ?_⟩
    rw [bind_of_ok (hleast f (by omega)), ← show w'.out = w.out from hout]
    exact hleast' f (by omega)

theorem known {b : β} {L : β → Nat → Bytes → Prop} (hb : m.Gives feed b) (h : Spills feed n seen s act (L b)) :
    Spills feed n seen s act fun k p => ∃ b, m.Gives feed b ∧ L b k p := by
  refine h.iff fun k p => ⟨?_, fun hp => ⟨b, hb, hp⟩⟩
  rintro ⟨b', hb', hp⟩
  rwa [hb.unique hb']

theorem afterWrite (bytes : Bytes) (h : Spills feed n seen s act L) (happends : ∀ f, Appends (act f)) :
    Spills feed n seen s (fun k => write bytes >>= fun _ => act k) fun k p => p = bytes ∨ ∃ q, L k q ∧ p = bytes ++ q := by
  have hwritten {w : World} (hw : w.Stocked feed seen) : ∃ w₁ : World, w₁.Stocked feed seen ∧
      w₁.out.bytes = w.out.bytes ++ bytes ∧ ∀ f, (write bytes >>= fun _ => act f) (s, w) = act f (s, w₁) := by
    refine ⟨{ w with out := { w.out with written := w.out.written ++ bytes } }, hw.redirect hw.room,
      by simp [Sink.bytes], fun f => ?_⟩
    rw [bind_run, write_run, Sink.write_of_limit_none hw.room]
  refine ⟨fun {w stop s'} hw hrun => ?_, fun {w p} hw hp => ?_⟩
  · obtain ⟨w₁, hw₁, hout, heq⟩ := hwritten hw
    obtain ⟨p, hp, hL⟩ := h.sound hw₁ (by rwa [← heq])
    refine ⟨bytes ++ p, by rw [hp, hout, List.append_assoc], .inr ?_⟩
    obtain rfl | ⟨k, hk⟩ := hL
    · exact ⟨0, .inl (List.append_nil _)⟩
    · exact ⟨k, .inr ⟨p, hk, rfl⟩⟩
  · obtain ⟨w₁, hw₁, hout, heq⟩ := hwritten hw
    simp only [heq]
    obtain rfl | ⟨q, hq, rfl⟩ := hp
    · exact ⟨0, fun f _ => hout ▸ (happends f s w₁ hw₁.room).2⟩
    · rw [← List.append_assoc, ← hout]
      exact h.complete hw₁ hq

end Spills

namespace TextView

variable {t : TextView}

/-- What a text that is drained may have streamed halfway: the chunks up to a place, and a front there. -/
def Emits (feed : Feed) (t : TextView) (L : Nat → Bytes → Prop) (bytes : Bytes) : Prop :=
  ∃ i soFar p, t.Runs feed 0 i soFar ∧ (p = [] ∨ L i p) ∧ bytes = soFar ++ p

/-- A front of what is streamed at a place: the text has not ended there, and what comes next begins with it. -/
def Fronts (feed : Feed) (t : TextView) (i : Nat) (p : Bytes) : Prop :=
  (t.ended i).Gives feed false ∧ ∀ chunk, (t.next i).Gives feed (some chunk) → p <+: chunk

theorem drainBySteps_succ (left : Nat) (ended : Act σ Bool) (stream : Act σ Unit) :
    drainBySteps (left + 1) ended stream = (do
      if ← ended then return ()
      stream
      drainBySteps left ended stream) := by
  rw [drainBySteps, loop, bind_assoc]
  refine bind_congr fun e => ?_
  cases e with
  | true => rfl
  | false => exact bind_assoc ..

theorem drainBySteps_of_more {ended : Nat → Act σ Bool} {stream : Nat → Act σ Unit} {r s₁ : σ × World}
    (h : Comes ended r (.ok false s₁)) (passed : Nat) : ∃ least, ∀ f, least ≤ f →
      drainBySteps (f - passed) (ended f) (stream f) r =
        (stream f >>= fun _ => drainBySteps (f - (passed + 1)) (ended f) (stream f)) s₁ := by
  obtain ⟨least, hleast⟩ := h.enough
  refine ⟨max least (passed + 1), fun f hf => ?_⟩
  rw [show f - passed = f - (passed + 1) + 1 by omega, drainBySteps_succ, bind_of_ok (hleast f (by omega))]
  rfl

section

variable {P : Reach → Nat → σ → Prop} {O : Reach → σ → Prop} {ended : Nat → Act σ Bool}
  {stream : Nat → Act σ Unit} {L : Nat → Nat → Bytes → Prop}
  (h : ∀ k, t.Streams feed k P O ended stream) (hended : ∀ k, Usual false (ended k))
  (hspills : ∀ {seen i s}, P seen i s → Spills feed n seen s stream fun k p => L k i p)
include h hended hspills

theorem drain_sound (left : Nat) (hs : P seen j s) {stop : Stop} {s' : σ × World} (hw : w.Stocked feed seen)
    (hrun : drainBySteps left (ended n) (stream n) (s, w) = .error stop s') :
    ∃ i rest p, t.Runs feed j i rest ∧ (p = [] ∨ ∃ k, L k i p) ∧ s'.2.out.bytes = w.out.bytes ++ (rest ++ p) := by
  induction left generalizing seen j s w with
  | zero =>
    cases hrun
    exact ⟨j, [], [], .refl j, .inl rfl, by simp⟩
  | succ left ih =>
    have hout := (hended n).quiet_run.out_eq s w
    rw [drainBySteps_succ, bind_run] at hrun
    cases hact : ended n (s, w) with
    | error stop' s₁ =>
      rw [hact] at hrun hout
      cases hrun
      exact ⟨j, [], [], .refl j, .inl rfl, by rw [show s'.2.out = w.out from hout]; simp⟩
    | ok e s₁ =>
      rw [hact] at hrun hout
      have hsame : s₁.2.out = w.out := hout
      obtain ⟨seen₁, _, _, -, hmoves, rfl, rfl, hs₁⟩ := Tracks.sound ((h n).ended hs) hw hact
      cases e with
      | true => cases hrun
      | false =>
        dsimp only at hrun
        simp only [Bool.false_eq_true, if_false] at hrun
        rw [bind_run] at hrun
        cases hstream : stream n s₁ with
        | error stop' s₂ =>
          rw [hstream] at hrun
          cases hrun
          obtain ⟨p, hp, hL⟩ := (hspills hs₁).sound hmoves.stocked hstream
          exact ⟨j, [], p, .refl j, hL, by rw [hp, hsame]; rfl⟩
        | ok u s₂ =>
          rw [hstream] at hrun
          obtain ⟨seen₂, chunk, bytes, -, hmoves', hstreamed⟩ := Tracks.sound ((h n).stream hs₁) hmoves.stocked hstream
          obtain ⟨j', hs₂, hpassed⟩ := streamed_iff.1 hstreamed
          obtain ⟨i, rest, p, hruns, hL, hbytes⟩ := ih hs₂ hmoves'.stocked hrun
          have hthere : t.Runs feed j j' bytes := by
            cases chunk with
            | none =>
              obtain ⟨rfl, rfl⟩ := hpassed
              exact .refl _
            | some chunk => exact hpassed.2
          exact ⟨i, bytes ++ rest, p, hthere.trans hruns, hL, by rw [hbytes, hmoves'.out, hsame]; simp⟩

variable (hstream : ∀ k, Usual true (stream k)) (hfronts : ∀ {k i p}, L k i p → t.Fronts feed i p)
include hstream hfronts

theorem drain_complete (passed : Nat) {i : Nat} {rest p : Bytes} (hruns : t.Runs feed j i rest)
    (hp : p = [] ∨ L n i p) (hs : P seen j s) (hw : w.Stocked feed seen) :
    ∃ least, ∀ f, least ≤ f →
      w.out.bytes ++ (rest ++ p) <+: (Result.world (drainBySteps (f - passed) (ended f) (stream f) (s, w))).out.bytes := by
  have happends (left f : Nat) : Appends (drainBySteps left (ended f) (stream f)) :=
    (drainBySteps_steps left (hended f).quiet (hstream f)).appends
  induction hlen : i - j using Nat.strongRecOn generalizing passed j rest seen s w with
  | ind len ih =>
    cases hruns with
    | refl =>
      obtain rfl | hp := hp
      · exact ⟨0, fun f _ => by simpa using (happends _ f s w hw.room).2⟩
      · obtain ⟨k, hk⟩ := (hfronts hp).1
        obtain ⟨seen₁, _, s₁, w₁, _, hcomes, hmoves, rfl, rfl, hs₁⟩ := Tracks.complete ((h k).ended hs) hw hk
        obtain ⟨least, hleast⟩ := drainBySteps_of_more hcomes passed
        obtain ⟨least', hleast'⟩ := (hspills hs₁).complete hmoves.stocked hp
        refine ⟨max least least', fun f hf => ?_⟩
        have hout : w₁.out.bytes = w.out.bytes := by simpa using hmoves.out
        rw [hleast f (by omega), List.nil_append, ← hout]
        refine (hleast' f (by omega)).trans ?_
        have hroom := ((hstream f).appends s₁ w₁ hmoves.stocked.room).1
        rw [bind_run]
        cases hact : stream f (s₁, w₁) with
        | error stop s₂ => exact List.prefix_refl _
        | ok u s₂ =>
          rw [hact] at hroom
          exact (happends _ f s₂.1 s₂.2 hroom).2
    | @step _ _ chunk rest hnext hrest =>
      obtain ⟨k, hk⟩ := (next_gives_some_iff.1 hnext).1
      obtain ⟨seen₁, _, s₁, w₁, _, hcomes, hmoves, rfl, rfl, hs₁⟩ := Tracks.complete ((h k).ended hs) hw hk
      have hall : t.Runs feed j i (chunk ++ rest) := .step hnext hrest
      obtain ⟨k', hk'⟩ := hnext
      obtain ⟨seen₂, u, s₂, w₂, bytes, hcomes', hmoves', j', hj', hthere, hs₂⟩ :=
        Tracks.complete ((h k').stream hs₁) hmoves.stocked hk'
      obtain ⟨least, hleast⟩ := drainBySteps_of_more hcomes passed
      obtain ⟨least', hleast'⟩ := hcomes'.enough
      have hstep (f : Nat) (hf : max least least' ≤ f) : drainBySteps (f - passed) (ended f) (stream f) (s, w) =
          drainBySteps (f - (passed + 1)) (ended f) (stream f) (s₂, w₂) := by
        rw [hleast f (by omega), bind_of_ok (hleast' f (by omega))]
      have hout : w₂.out.bytes = w.out.bytes ++ bytes := by
        rw [hmoves'.out, hmoves.out, List.append_nil]
      have hle := hrest.le
      by_cases hij : j' ≤ i
      · obtain ⟨rest', hsplit, hrest'⟩ := hall.split hthere hij
        obtain ⟨least'', hleast''⟩ := ih (i - j') (by omega) (passed + 1) hrest' hs₂ hmoves'.stocked rfl
        refine ⟨max (max least least') least'', fun f hf => ?_⟩
        rw [hstep f (by omega), hsplit, List.append_assoc, ← List.append_assoc, ← hout]
        exact hleast'' f (by omega)
      · -- The place is passed in one step, and what comes there with it.
        obtain ⟨more, rfl, hmore⟩ := hthere.split hall (by omega)
        have hfront : p <+: more := by
          obtain rfl | hp := hp
          · exact List.nil_prefix
          · cases hmore with
            | refl => omega
            | step hnext' _ => exact ((hfronts hp).2 _ hnext').trans (List.prefix_append ..)
        refine ⟨max least least', fun f hf => ?_⟩
        rw [hstep f hf]
        refine List.IsPrefix.trans ?_ (happends _ f s₂ w₂ hmoves'.stocked.room).2
        rw [hout]
        simpa [List.append_assoc] using hfront

theorem drain_spills (hs : P seen 0 s) :
    Spills feed n seen s (fun f => drainBySteps f (ended f) (stream f)) fun k => t.Emits feed (L k) where
  sound hw hrun := by
    obtain ⟨i, rest, p, hruns, hp, hbytes⟩ := drain_sound h hended hspills n hs hw hrun
    obtain rfl | ⟨k, hk⟩ := hp
    · exact ⟨_, hbytes, .inr ⟨0, i, rest, [], hruns, .inl rfl, rfl⟩⟩
    · exact ⟨_, hbytes, .inr ⟨k, i, rest, p, hruns, .inr hk, rfl⟩⟩
  complete hw := by
    rintro ⟨i, soFar, p, hruns, hp, rfl⟩
    exact drain_complete h hended hspills hstream hfronts 0 hruns hp hs hw

end

end TextView

end PullScript
