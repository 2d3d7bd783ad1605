import PullScript.Proofs.Eval.Fuel
import PullScript.Proofs.View.Rules
import PullScript.Proofs.View.Stock
import PullScript.Proofs.World.Sink

namespace PullScript

open Act

variable {σ τ α β γ δ : Type}
variable {w w' : World} {bytes : Bytes} {N' : Reach → β → α → σ → Bytes → Prop} {x : Except Error β}
  {r : Act.Result σ α} {t : τ} {rebuild : σ → τ} {inner act' : Nat → Act σ α} {outer : Nat → Act τ α} {a : α} {b : β}
  {error : Error} {next : Nat → α → Act σ γ} {f : σ → σ} {part : σ} {values : List Value}

structure World.Moves (feed : Feed) (seen : Reach) (w : World) (seen' : Reach) (w' : World)
    (bytes : Bytes) : Prop where
  further : Further seen seen'
  stocked : w'.Stocked feed seen'
  out : w'.out.bytes = w.out.bytes ++ bytes

theorem World.Moves.refl {feed : Feed} {seen : Reach} (h : w.Stocked feed seen) :
    w.Moves feed seen seen w [] :=
  ⟨.refl seen, h, (List.append_nil _).symm⟩

theorem World.Moves.trans {feed : Feed} {seen seen' seen'' : Reach} {w'' : World} {bytes' : Bytes}
    (h : w.Moves feed seen seen' w' bytes) (h' : w'.Moves feed seen' seen'' w'' bytes') :
    w.Moves feed seen seen'' w'' (bytes ++ bytes') :=
  ⟨h.further.trans h'.further, h'.stocked, by rw [h'.out, h.out, List.append_assoc]⟩

/-- What work in the world `w` has come to and what a view comes to: both fail with the same error, or `N`
relates what the view gives to the answer, the state that is left and the bytes that are streamed. -/
inductive Confirms (feed : Feed) (seen : Reach) (w : World)
    (N : Reach → β → α → σ → Bytes → Prop) : Except Error β → Act.Result σ α → Prop
  | ok {seen' : Reach} {b : β} {a : α} {s' : σ} {w' : World} {bytes : Bytes} :
    w.Moves feed seen seen' w' bytes → N seen' b a s' bytes → Confirms feed seen w N (.ok b) (.ok a (s', w'))
  | failed (error : Error) (s' : σ × World) : Confirms feed seen w N (.error error) (.error (.failed error) s')

/-- Work on `s` follows the view `m`. Unless it runs out of the fuel `n`, it comes to what the view comes to;
what the view comes to for one who looks `n` deep the work comes to. -/
structure Tracks (feed : Feed) (n : Nat) (seen : Reach) (s : σ) (act : Nat → Act σ α)
    (m : View β) (N : Reach → β → α → σ → Bytes → Prop) : Prop where
  follows : ∀ {w : World}, w.Stocked feed seen → (∃ s', act n (s, w) = .error .outOfFuel s') ∨
    ∃ x, m.Shows feed x ∧ Confirms feed seen w N x (act n (s, w))
  reaches : ∀ {w : World} {x : Except Error β}, w.Stocked feed seen → m.run (viewer feed n) = some x →
    ∃ r, Comes act (s, w) r ∧ Confirms feed seen w N x r

/-- Work that follows a view, answers just what the view gives and streams nothing. -/
def Tells (feed : Feed) (n : Nat) (seen : Reach) (s : σ) (act : Nat → Act σ α) (m : View α)
    (P : Reach → α → σ → Prop) : Prop :=
  Tracks feed n seen s act m fun seen' b a s' bytes => a = b ∧ bytes = [] ∧ P seen' b s'

variable {feed : Feed} {n : Nat} {seen : Reach} {s : σ} {act : Nat → Act σ α} {m : View β}
  {N : Reach → β → α → σ → Bytes → Prop}

theorem Confirms.imp (h : Confirms feed seen w N x r)
    (hN : ∀ seen' b a s' bytes, x = .ok b → Further seen seen' → N seen' b a s' bytes → N' seen' b a s' bytes) :
    Confirms feed seen w N' x r := by
  cases h with
  | failed error s' => exact .failed error s'
  | ok hmoves hab => exact .ok hmoves (hN _ _ _ _ _ rfl hmoves.further hab)

theorem Confirms.after {seen₁ : Reach} {w₁ : World} (hmoves : w.Moves feed seen seen₁ w₁ bytes)
    (h : Confirms feed seen₁ w₁ (fun seen' b a s' more => N seen' b a s' (bytes ++ more)) x r) :
    Confirms feed seen w N x r := by
  cases h with
  | failed error s' => exact .failed error s'
  | ok hmoves' hab => exact .ok (hmoves.trans hmoves') hab

inductive Nested (s : σ) (t : τ) (rebuild : σ → τ) (inner : Nat → Act σ α) (outer : Nat → Act τ α) : Prop
  | zoom : (∀ k w, outer k (t, w) = Result.on rebuild id (inner k (s, w))) → Nested s t rebuild inner outer
  | within (around : World → List (List Value)) : (∀ k (w : World), outer k (t, w) =
      Result.on rebuild (fun w₁ => { w₁ with around := w.around }) (inner k (s, { w with around := around w }))) →
    Nested s t rebuild inner outer

theorem Nested.ofZoom (h : ∀ k w, outer k (t, w) = Act.zoom s rebuild (inner k) (t, w)) :
    Nested s t rebuild inner outer :=
  .zoom fun k w => (h k w).trans (zoom_run ..)

theorem Nested.ofWithin [Holder τ] [Inhabited σ] (h : ∀ k w, outer k (t, w) = Act.within s rebuild (inner k) (t, w)) :
    Nested s t rebuild inner outer :=
  .within _ fun k w => (h k w).trans (within_run ..)

namespace Tracks

section

variable (h : Tracks feed n seen s act m N)
include h

theorem sound {s' : σ} (hw : w.Stocked feed seen) (hrun : act n (s, w) = .ok a (s', w')) :
    ∃ seen' b bytes, m.Gives feed b ∧ w.Moves feed seen seen' w' bytes ∧ N seen' b a s' bytes := by
  obtain ⟨_, hout⟩ | ⟨x, hx, hfits⟩ := h.follows hw
  · cases hrun.symm.trans hout
  · rw [hrun] at hfits
    cases hfits with
    | ok hmoves hab => exact ⟨_, _, _, hx, hmoves, hab⟩

theorem complete (hw : w.Stocked feed seen) (hrun : m.run (viewer feed n) = some (.ok b)) :
    ∃ seen' a s' w' bytes, Comes act (s, w) (.ok a (s', w')) ∧
      w.Moves feed seen seen' w' bytes ∧ N seen' b a s' bytes := by
  obtain ⟨r, hcomes, hfits⟩ := h.reaches hw hrun
  cases hfits with
  | ok hmoves hab => exact ⟨_, _, _, _, _, hcomes, hmoves, hab⟩

theorem fails {s' : σ × World} (hw : w.Stocked feed seen)
    (hrun : act n (s, w) = .error (.failed error) s') : m.Fails feed error := by
  obtain ⟨_, hout⟩ | ⟨x, hx, hfits⟩ := h.follows hw
  · cases hrun.symm.trans hout
  · rw [hrun] at hfits
    cases hfits
    exact hx

theorem failing (hw : w.Stocked feed seen)
    (hrun : m.run (viewer feed n) = some (.error error)) : ∃ s', Comes act (s, w) (.error (.failed error) s') := by
  obtain ⟨r, hcomes, hfits⟩ := h.reaches hw hrun
  cases hfits
  exact ⟨_, hcomes⟩

end

theorem ofEnd (hx : m.Shows feed x)
    (h : ∀ w : World, w.Stocked feed seen → ∃ r, (∀ k, act k (s, w) = r) ∧ Confirms feed seen w N x r) :
    Tracks feed n seen s act m N where
  follows {w} hw := by
    obtain ⟨r, hact, hfits⟩ := h w hw
    exact .inr ⟨x, hx, by rwa [hact]⟩
  reaches {w y} hw hrun := by
    obtain ⟨r, hact, hfits⟩ := h w hw
    obtain rfl := View.Shows.unique hx ⟨n, hrun⟩
    exact ⟨r, .of_eq hact, hfits⟩

theorem ofPure
    (h : ∀ w : World, w.Stocked feed seen → ∃ seen' a s' w' bytes, (∀ k, act k (s, w) = .ok a (s', w')) ∧
      w.Moves feed seen seen' w' bytes ∧ N seen' b a s' bytes) :
    Tracks feed n seen s act (Pure.pure b) N := by
  refine .ofEnd (.pure _) fun w hw => ?_
  obtain ⟨seen', a, s', w', bytes, hact, hmoves, hab⟩ := h w hw
  exact ⟨_, hact, .ok hmoves hab⟩

theorem ofFail (hm : m.Fails feed error)
    (h : ∀ (w : World), w.Stocked feed seen → ∃ s', ∀ k, act k (s, w) = .error (.failed error) s') :
    Tracks feed n seen s act m N := by
  refine .ofEnd hm fun w hw => ?_
  obtain ⟨s', hact⟩ := h w hw
  exact ⟨_, hact, .failed error s'⟩

theorem pure (h : N seen b a s []) : Tracks feed n seen s (fun _ => Pure.pure a) (Pure.pure b) N :=
  .ofPure fun w hw => ⟨seen, a, s, w, [], fun _ => rfl, .refl hw, h⟩

theorem fail (error : Error) : Tracks feed n seen s (fun _ => Act.fail error) (View.fail error) N :=
  .ofFail (View.fails_fail_iff.2 rfl) fun w _ => ⟨(s, w), fun _ => rfl⟩

theorem imp (h : Tracks feed n seen s act m N)
    (hN : ∀ seen' b a s' bytes, Further seen seen' → m.Gives feed b → N seen' b a s' bytes → N' seen' b a s' bytes) :
    Tracks feed n seen s act m N' where
  follows hw := by
    refine (h.follows hw).imp_right fun ⟨x, hx, hfits⟩ => ⟨x, hx, hfits.imp ?_⟩
    rintro seen' b a s' bytes rfl hfurther hab
    exact hN _ _ _ _ _ hfurther hx hab
  reaches hw hrun := by
    obtain ⟨r, hcomes, hfits⟩ := h.reaches hw hrun
    refine ⟨r, hcomes, hfits.imp ?_⟩
    rintro seen' b a s' bytes rfl hfurther hab
    exact hN _ _ _ _ _ hfurther ⟨n, hrun⟩ hab

theorem view {m' : View β} (h : Tracks feed n seen s act m N) (hsound : ∀ x, m.Shows feed x → m'.Shows feed x)
    (hcomplete : ∀ x, m'.run (viewer feed n) = some x → m.run (viewer feed n) = some x) :
    Tracks feed n seen s act m' N where
  follows hw := (h.follows hw).imp_right fun ⟨x, hx, hfits⟩ => ⟨x, hsound x hx, hfits⟩
  reaches hw hrun := h.reaches hw (hcomplete _ hrun)

theorem known {m' : β → View γ} {N' : Reach → γ → α → σ → Bytes → Prop} (hb : m.Gives feed b)
    (h : Tracks feed n seen s act (m' b) N') : Tracks feed n seen s act (m >>= m') N' where
  follows hw := (h.follows hw).imp_right fun ⟨x, hx, hfits⟩ => ⟨x, hb.bind hx, hfits⟩
  reaches hw hrun := by
    obtain ⟨b', hb', hrun⟩ | ⟨error, rfl, herror⟩ := View.run_bind_eq_some_iff.1 hrun
    · rw [View.Gives.unique ⟨n, hb'⟩ hb] at hrun
      exact h.reaches hw hrun
    · exact (hb.not_fails ⟨n, herror⟩).elim

theorem given (hb : m.Gives feed b) (h : Tracks feed n seen s act (Pure.pure b) N) : Tracks feed n seen s act m N := by
  rw [← bind_pure m]
  exact .known hb h

section

variable (h : Tracks feed n seen s act m N)
include h

theorem blaming (hact : ∀ k w, act' k (s, w) = Result.blaming error (act k (s, w))) :
    Tracks feed n seen s act' (m.blaming error) N := by
  have hfits {w : World} {x : Except Error β} {r : Act.Result σ α} (h : Confirms feed seen w N x r) :
      Confirms feed seen w N (x.mapError fun _ => error) (Result.blaming error r) := by
    cases h with
    | ok hmoves hab => exact .ok hmoves hab
    | failed e s' => exact .failed error s'
  refine ⟨fun {w} hw => ?_, fun {w x} hw hrun => ?_⟩
  · rw [hact]
    obtain ⟨s', hout⟩ | ⟨x, ⟨k, hx⟩, h⟩ := h.follows hw
    · exact .inl ⟨s', by rw [hout]; rfl⟩
    · exact .inr ⟨_, ⟨k, congrArg (Option.map _) hx⟩, hfits h⟩
  · obtain ⟨y, hy, rfl⟩ := Option.map_eq_some_iff.1 hrun
    obtain ⟨r, hcomes, h⟩ := h.reaches hw hy
    exact ⟨_, hcomes.through (fun s' => ⟨s', rfl⟩) fun k => hact k w, hfits h⟩

theorem congr (heq : ∀ k w, act' k (s, w) = act k (s, w)) :
    Tracks feed n seen s act' m N where
  follows hw := by
    rw [heq]
    exact h.follows hw
  reaches hw hrun := by
    obtain ⟨r, hcomes, hfits⟩ := h.reaches hw hrun
    exact ⟨r, hcomes.congr fun k => heq k _, hfits⟩

theorem keeping {Q : σ → Prop} (hQ : ∀ k w a s' w', act k (s, w) = .ok a (s', w') → Q s') :
    Tracks feed n seen s act m fun seen' b a s' bytes => N seen' b a s' bytes ∧ Q s' := by
  have hfits {w : World} {x : Except Error β} {k : Nat} (h : Confirms feed seen w N x (act k (s, w))) :
      Confirms feed seen w (fun seen' b a s' bytes => N seen' b a s' bytes ∧ Q s') x (act k (s, w)) := by
    generalize hr : act k (s, w) = r at h
    cases h with
    | failed error s' => exact .failed error s'
    | ok hmoves hab => exact .ok hmoves ⟨hab, hQ _ _ _ _ _ hr⟩
  refine ⟨fun hw => (h.follows hw).imp_right fun ⟨x, hx, h⟩ => ⟨x, hx, hfits h⟩, fun {w x} hw hrun => ?_⟩
  obtain ⟨r, hcomes, h⟩ := h.reaches hw hrun
  obtain ⟨least, hleast⟩ := hcomes.enough
  obtain rfl := hleast least (Nat.le_refl _)
  exact ⟨_, hcomes, hfits h⟩

theorem bind {m' : β → View δ} {N' : Reach → δ → γ → σ → Bytes → Prop}
    (hnext : ∀ seen' b a s' bytes, Further seen seen' → m.Gives feed b → N seen' b a s' bytes → Tracks feed n seen' s'
      (fun k => next k a) (m' b) fun seen'' d c s'' bytes' => N' seen'' d c s'' (bytes ++ bytes')) :
    Tracks feed n seen s (fun k => act k >>= next k) (m >>= m') N' where
  follows {w} hw := by
    obtain ⟨s', hout⟩ | ⟨x, hx, hfits⟩ := h.follows hw
    · exact .inl ⟨s', bind_of_error hout _⟩
    generalize hr : act n (s, w) = r at hfits
    cases hfits with
    | failed error s' =>
      rw [bind_of_error hr]
      exact .inr ⟨_, View.Fails.bind hx, .failed error s'⟩
    | ok hmoves hab =>
      rw [bind_of_ok hr]
      refine ((hnext _ _ _ _ _ hmoves.further hx hab).follows hmoves.stocked).imp_right ?_
      exact fun ⟨y, hy, hfits⟩ => ⟨y, View.Gives.bind hx hy, hfits.after hmoves⟩
  reaches hw hrun := by
    obtain ⟨b, hb, hrun⟩ | ⟨error, rfl, herror⟩ := View.run_bind_eq_some_iff.1 hrun
    · obtain ⟨seen₁, a, s₁, w₁, bytes, hcomes, hmoves, hab⟩ := h.complete hw hb
      obtain ⟨r, hcomes', hfits⟩ :=
        (hnext _ _ _ _ _ hmoves.further ⟨n, hb⟩ hab).reaches hmoves.stocked hrun
      exact ⟨r, hcomes.bind hcomes', hfits.after hmoves⟩
    · obtain ⟨s', hcomes⟩ := h.failing hw herror
      exact ⟨_, hcomes.bind_error, .failed error s'⟩

theorem mapped {f : β → γ} {N' : Reach → γ → α → σ → Bytes → Prop}
    (hN : ∀ seen' b a s' bytes, Further seen seen' → m.Gives feed b → N seen' b a s' bytes →
      N' seen' (f b) a s' bytes) :
    Tracks feed n seen s act (m >>= fun b => Pure.pure (f b)) N' := by
  have hbind : Tracks feed n seen s (fun k => act k >>= fun a => Pure.pure a) (m >>= fun b => Pure.pure (f b)) N' := by
    refine h.bind fun seen' b a s' bytes hfurther hb hab => .pure ?_
    rw [List.append_nil]
    exact hN _ _ _ _ _ hfurther hb hab
  exact hbind.congr fun k w => by rw [bind_pure]

theorem andThen {N' : Reach → β → γ → σ → Bytes → Prop}
    (hnext : ∀ seen' b a s' bytes, Further seen seen' → m.Gives feed b → N seen' b a s' bytes → Tracks feed n seen' s'
      (fun k => next k a) (Pure.pure b) fun seen'' d c s'' bytes' => N' seen'' d c s'' (bytes ++ bytes')) :
    Tracks feed n seen s (fun k => act k >>= next k) m N' := by
  rw [← bind_pure m]
  exact h.bind hnext

end

theorem assoc {middle : Nat → α → Act σ γ} {last : Nat → γ → Act σ δ} {N : Reach → β → δ → σ → Bytes → Prop}
    (h : Tracks feed n seen s (fun k => (act k >>= middle k) >>= last k) m N) :
    Tracks feed n seen s (fun k => act k >>= fun a => middle k a >>= last k) m N :=
  h.congr fun _ _ => by rw [bind_assoc]

theorem assocView {middle : β → View γ} {last : γ → View δ} {N : Reach → δ → α → σ → Bytes → Prop}
    (h : Tracks feed n seen s act ((m >>= middle) >>= last) N) :
    Tracks feed n seen s act (m >>= fun b => middle b >>= last) N := by
  rwa [bind_assoc] at h

theorem look {next : Nat → σ → Act σ α} (h : Tracks feed n seen s (fun k => next k s) m N) :
    Tracks feed n seen s (fun k => Act.look >>= next k) m N :=
  h.congr fun _ _ => rfl

theorem afterChange (h : Tracks feed n seen (f s) act m N) :
    Tracks feed n seen s (fun k => change f >>= fun _ => act k) m N where
  follows hw := h.follows hw
  reaches hw hrun := by
    obtain ⟨r, hcomes, hfits⟩ := h.reaches hw hrun
    exact ⟨r, .bind (.of_eq fun _ => rfl) hcomes, hfits⟩

theorem afterPut (h : Tracks feed n seen part act m N) :
    Tracks feed n seen s (fun k => Act.put part >>= fun _ => act k) m N :=
  (afterChange (f := fun _ => part) h).congr fun _ _ => rfl

theorem write {N : Reach → β → Unit → σ → Bytes → Prop} (h : N seen b () s bytes) :
    Tracks feed n seen s (fun _ => Act.write bytes) (Pure.pure b) N := by
  refine .ofPure fun w hw => ⟨seen, (), s, { w with out := { w.out with written := w.out.written ++ bytes } },
    bytes, fun _ => ?_, ⟨.refl seen, hw.redirect hw.room, by simp [Sink.bytes]⟩, h⟩
  rw [write_run, Sink.write_of_limit_none hw.room]

theorem afterWrite (h : Tracks feed n seen s act m fun seen' b a s' more => N seen' b a s' (bytes ++ more)) :
    Tracks feed n seen s (fun k => Act.write bytes >>= fun _ => act k) m N := by
  have hwrite : Tracks feed n seen s (fun _ => Act.write (σ := σ) bytes) (Pure.pure ())
      fun seen' _ _ s' out => seen' = seen ∧ s' = s ∧ out = bytes :=
    .write ⟨rfl, rfl, rfl⟩
  rw [← pure_bind () fun _ => m]
  refine hwrite.bind ?_
  rintro _ _ _ _ _ - - ⟨rfl, rfl, rfl⟩
  exact h

theorem change {N : Reach → β → Unit → σ → Bytes → Prop} (h : N seen b () (f s) []) :
    Tracks feed n seen s (fun _ => Act.change f) (Pure.pure b) N :=
  .ofPure fun w hw => ⟨seen, (), f s, w, [], fun _ => rfl, .refl hw, h⟩

theorem put {N : Reach → β → Unit → σ → Bytes → Prop} (h : N seen b () part []) :
    Tracks feed n seen s (fun _ => Act.put part) (Pure.pure b) N :=
  .ofPure fun w hw => ⟨seen, (), part, w, [], fun _ => rfl, .refl hw, h⟩

theorem through {act' : Nat → Act τ γ} {N' : Reach → β → γ → τ → Bytes → Prop}
    (h : Tracks feed n seen s act m N) (start : World → World) (after : World → Act.Result σ α → Act.Result τ γ)
    (heq : ∀ k w, act' k (t, w) = after w (act k (s, start w)))
    (hstart : ∀ w, w.Stocked feed seen → (start w).Stocked feed seen)
    (herror : ∀ w stop s', ∃ t', after w (.error stop s') = .error stop t')
    (hok : ∀ w seen' b a s' w₁ bytes, w.Stocked feed seen → (start w).Moves feed seen seen' w₁ bytes →
      N seen' b a s' bytes → ∃ c t' w' bytes', after w (.ok a (s', w₁)) = .ok c (t', w') ∧
      w.Moves feed seen seen' w' bytes' ∧ N' seen' b c t' bytes') :
    Tracks feed n seen t act' m N' := by
  have hfits {w : World} {x : Except Error β} {r : Act.Result σ α} (hw : w.Stocked feed seen)
      (h : Confirms feed seen (start w) N x r) : Confirms feed seen w N' x (after w r) := by
    cases h with
    | failed error s' =>
      obtain ⟨t', hstop⟩ := herror w (.failed error) s'
      rw [hstop]
      exact .failed error t'
    | ok hmoves hab =>
      obtain ⟨c, t', w', bytes', hafter, hmoves', hN⟩ := hok w _ _ _ _ _ _ hw hmoves hab
      rw [hafter]
      exact .ok hmoves' hN
  refine ⟨fun {w} hw => ?_, fun {w x} hw hrun => ?_⟩
  · rw [heq]
    obtain ⟨s', hout⟩ | ⟨x, hx, h⟩ := h.follows (hstart w hw)
    · rw [hout]
      exact .inl (herror w .outOfFuel s')
    · exact .inr ⟨x, hx, hfits hw h⟩
  · obtain ⟨r, hcomes, h⟩ := h.reaches (hstart w hw) hrun
    exact ⟨_, hcomes.through (herror w .outOfFuel) fun k => heq k w, hfits hw h⟩

theorem on {act' : Nat → Act τ α} (rebuild : σ → τ) (h : Tracks feed n seen s act m N)
    {around : World → List (List Value)}
    (heq : ∀ k (w : World), act' k (t, w) = Result.on rebuild
      (fun w₁ => { w₁ with around := w.around }) (act k (s, { w with around := around w }))) :
    Tracks feed n seen t act' m fun seen' b a t' bytes => ∃ s', t' = rebuild s' ∧ N seen' b a s' bytes := by
  refine h.through _ _ heq (fun _ hw => hw.around _) (fun _ _ _ => ⟨_, rfl⟩) ?_
  intro w seen' b a s' w₁ bytes _ hmoves hab
  exact ⟨a, _, _, bytes, rfl, ⟨hmoves.further, hmoves.stocked.around _, hmoves.out⟩, s', rfl, hab⟩

section

variable (h : Tracks feed n seen s act m N)
include h

theorem within [Holder τ] [Inhabited σ] :
    Tracks feed n seen t (fun k => Act.within s rebuild (act k)) m fun seen' b a t' bytes =>
      ∃ s', t' = rebuild s' ∧ N seen' b a s' bytes :=
  h.on rebuild fun _ _ => within_run ..

theorem zoom :
    Tracks feed n seen t (fun k => Act.zoom s rebuild (act k)) m fun seen' b a t' bytes =>
      ∃ s', t' = rebuild s' ∧ N seen' b a s' bytes := by
  refine h.through id (fun _ => Result.on rebuild id) (fun _ _ => zoom_run ..) (fun _ => id)
    (fun _ _ _ => ⟨_, rfl⟩) ?_
  exact fun w seen' b a s' w₁ bytes _ hmoves hab => ⟨a, _, w₁, bytes, rfl, hmoves, s', rfl, hab⟩

theorem inside (hinside : Nested s t rebuild act outer) :
    Tracks feed n seen t outer m fun seen' b a t' bytes => ∃ s', t' = rebuild s' ∧ N seen' b a s' bytes := by
  cases hinside with
  | zoom heq => exact (h.zoom (t := t)).congr fun k w => (heq k w).trans (zoom_run ..).symm
  | within around heq => exact h.on rebuild heq

theorem holding :
    Tracks feed n seen s (fun k => Act.holding values (act k)) m N := by
  refine (h.on id fun _ _ => holding_run ..).imp ?_
  rintro seen' b a _ bytes - - ⟨s', rfl, hab⟩
  exact hab

theorem onFirst [Holder σ] [Holder τ] [Inhabited σ] :
    Tracks feed n seen (s, t) (fun k => Act.onFirst (act k)) m fun seen' b a t' bytes =>
      ∃ s', t' = (s', t) ∧ N seen' b a s' bytes :=
  h.on (fun s => (s, t)) fun _ w => within_run s (fun s => (s, t)) _ (s, t) w

theorem onSecond [Holder σ] [Holder τ] [Inhabited σ] :
    Tracks feed n seen (t, s) (fun k => Act.onSecond (act k)) m fun seen' b a t' bytes =>
      ∃ s', t' = (t, s') ∧ N seen' b a s' bytes :=
  h.on (fun s => (t, s)) fun _ w => within_run s (fun s => (t, s)) _ (t, s) w

theorem aside [Holder τ] :
    Tracks feed n seen t (fun k => Act.aside s (act k)) m fun seen' b a t' bytes =>
      t' = t ∧ N seen' b a.1 a.2 bytes := by
  have hheld : Tracks feed n seen s (fun k => Act.holding (held t) (act k)) m N := h.holding
  refine hheld.through id (fun _ => Result.beside t) (fun _ _ => aside_run ..) (fun _ => id)
    (fun _ _ _ => ⟨_, rfl⟩) ?_
  intro w seen' b a s' w₁ bytes _ hmoves hab
  exact ⟨(a, s'), t, w₁, bytes, rfl, hmoves, rfl, hab⟩

end

theorem gathered {act : Nat → Act σ Unit} {N : Reach → β → Unit → σ → Bytes → Prop}
    (h : Tracks feed n seen s act m N) :
    Tracks feed n seen s (fun k => Act.gathered (act k)) m fun seen' b a s' bytes =>
      bytes = [] ∧ N seen' b () s' a := by
  refine h.through _ _ (fun _ w => gathered_run _ s w) (fun _ hw => hw.redirect rfl) (fun _ _ _ => ⟨_, rfl⟩) ?_
  intro w seen' b a s' w₁ bytes hw hmoves hab
  have hbytes : w₁.out.bytes = bytes := hmoves.out
  refine ⟨bytes, s', _, [], by rw [Result.gathered, hbytes], ⟨hmoves.further, hmoves.stocked.redirect hw.room, ?_⟩,
    rfl, hab⟩
  exact (List.append_nil _).symm

theorem gather {buffer : Bytes} (h : Tracks feed n seen s act m N) :
    Tracks feed n seen (buffer, s) (fun k => Act.gather (act k)) m fun seen' b a s' bytes =>
      bytes = [] ∧ ∃ more, s'.1 = buffer ++ more ∧ N seen' b a s'.2 more := by
  refine h.through _ _ (fun _ w => gather_run _ buffer s w) (fun _ hw => hw.redirect rfl) (fun _ _ _ => ⟨_, rfl⟩) ?_
  intro w seen' b a s' w₁ bytes hw hmoves hab
  have hbytes : w₁.out.bytes = bytes := hmoves.out
  refine ⟨a, (buffer ++ bytes, s'), _, [], by rw [Result.gather, hbytes],
    ⟨hmoves.further, hmoves.stocked.redirect hw.room, ?_⟩, rfl, bytes, rfl, hab⟩
  exact (List.append_nil _).symm

end Tracks

namespace Tells

variable {m : View α} {P : Reach → α → σ → Prop}

theorem pure (h : P seen a s) : Tells feed n seen s (fun _ => Pure.pure a) (Pure.pure a) P :=
  Tracks.pure ⟨rfl, rfl, h⟩

theorem fail (error : Error) : Tells feed n seen s (fun _ => Act.fail error) (View.fail error) P :=
  Tracks.fail error

theorem ofOption {a : Option α} (h : ∀ x, a = some x → P seen x s) :
    Tells feed n seen s (fun _ => Act.ofOption a) (View.ofOption a) P := by
  cases a with
  | none => exact ⟨fun _ => .inl ⟨_, rfl⟩, fun _ => nofun⟩
  | some x => exact Tells.pure (h x rfl)

theorem change {P : Reach → Unit → σ → Prop} (h : P seen () (f s)) :
    Tells feed n seen s (fun _ => Act.change f) (Pure.pure ()) P :=
  Tracks.change ⟨rfl, rfl, h⟩

theorem imp {P' : Reach → α → σ → Prop} (h : Tells feed n seen s act m P)
    (hP : ∀ seen' a s', Further seen seen' → m.Gives feed a → P seen' a s' → P' seen' a s') :
    Tells feed n seen s act m P' :=
  Tracks.imp h fun _ _ _ _ _ hfurther hm ⟨ha, hbytes, hp⟩ => ⟨ha, hbytes, hP _ _ _ hfurther hm hp⟩

theorem bind {m' : α → View δ} {N' : Reach → δ → γ → σ → Bytes → Prop} (h : Tells feed n seen s act m P)
    (hnext : ∀ seen' a s', Further seen seen' → m.Gives feed a → P seen' a s' → Tracks feed n seen' s'
      (fun k => next k a) (m' a) N') :
    Tracks feed n seen s (fun k => act k >>= next k) (m >>= m') N' := by
  refine Tracks.bind h ?_
  rintro seen' a _ s' _ hfurther hm ⟨rfl, rfl, hp⟩
  exact hnext seen' _ s' hfurther hm hp

theorem congr (h : Tells feed n seen s act m P) (heq : ∀ k w, act' k (s, w) = act k (s, w)) :
    Tells feed n seen s act' m P :=
  Tracks.congr h heq

theorem look {next : Nat → σ → Act σ α} (h : Tells feed n seen s (fun k => next k s) m P) :
    Tells feed n seen s (fun k => Act.look >>= next k) m P :=
  Tracks.look h

section

variable (h : Tells feed n seen s act m P)
include h

theorem within [Holder τ] [Inhabited σ] :
    Tells feed n seen t (fun k => Act.within s rebuild (act k)) m fun seen' a t' =>
      ∃ s', t' = rebuild s' ∧ P seen' a s' :=
  (Tracks.within h).imp fun _ _ _ _ _ _ _ ⟨s', ht, ha, hbytes, hp⟩ => ⟨ha, hbytes, s', ht, hp⟩

theorem holding : Tells feed n seen s (fun k => Act.holding values (act k)) m P :=
  Tracks.holding h

theorem onFirst [Holder σ] [Holder τ] [Inhabited σ] :
    Tells feed n seen (s, t) (fun k => Act.onFirst (act k)) m fun seen' a t' => ∃ s', t' = (s', t) ∧ P seen' a s' :=
  (Tracks.onFirst h).imp fun _ _ _ _ _ _ _ ⟨s', ht, ha, hbytes, hp⟩ => ⟨ha, hbytes, s', ht, hp⟩

theorem onSecond [Holder σ] [Holder τ] [Inhabited σ] :
    Tells feed n seen (t, s) (fun k => Act.onSecond (act k)) m fun seen' a t' => ∃ s', t' = (t, s') ∧ P seen' a s' :=
  (Tracks.onSecond h).imp fun _ _ _ _ _ _ _ ⟨s', ht, ha, hbytes, hp⟩ => ⟨ha, hbytes, s', ht, hp⟩

end

end Tells

def SameRound (I : Reach → γ → β → σ → Prop) (N : Reach → δ → α → σ → Prop)
    (seen : Reach) (x : γ ⊕ δ) (y : β ⊕ α) (s : σ) (bytes : Bytes) : Prop :=
  bytes = [] ∧
    match x, y with
    | .inl c, .inl b => I seen c b s
    | .inr d, .inr a => N seen d a s
    | _, _ => False

theorem Tracks.loop {body : Nat → β → Act σ (β ⊕ α)} {viewBody : γ → View (γ ⊕ δ)}
    {I : Reach → γ → β → σ → Prop} {N : Reach → δ → α → σ → Prop}
    (hbody : ∀ seen c b s, I seen c b s → Tracks feed n seen s (fun k => body k b) (viewBody c) (SameRound I N))
    {c : γ} (h : I seen c b s) :
    Tracks feed n seen s (fun k => Act.loop (body k) k b) (View.loop viewBody c)
      fun seen' d a s' bytes => bytes = [] ∧ N seen' d a s' := by
  constructor
  · suffices hfollows : ∀ left seen c b s, I seen c b s → ∀ {w : World}, w.Stocked feed seen →
        (∃ s', Act.loop (body n) left b (s, w) = .error .outOfFuel s') ∨
        ∃ x, (View.loop viewBody c).Shows feed x ∧ Confirms feed seen w
          (fun seen' d a s' bytes => bytes = [] ∧ N seen' d a s') x (Act.loop (body n) left b (s, w)) from
      fun {_} hw => hfollows n seen c b s h hw
    intro left
    induction left with
    | zero => exact fun _ _ _ _ _ _ _ => .inl ⟨_, rfl⟩
    | succ left ih =>
      intro seen c b s h w hw
      rw [Act.loop]
      obtain ⟨s', hout⟩ | ⟨x, hx, hfits⟩ := (hbody seen c b s h).follows hw
      · exact .inl ⟨s', bind_of_error hout _⟩
      generalize hr : body n b (s, w) = r at hfits
      cases hfits with
      | failed error s' =>
        rw [bind_of_error hr]
        exact .inr ⟨.error error, View.shows_loop_iff.2 (.inr hx), .failed error s'⟩
      | @ok seen₁ x y s₁ w₁ bytes hmoves hround =>
        rw [bind_of_ok hr]
        obtain ⟨rfl, hround⟩ := hround
        cases x with
        | inl c' =>
          cases y with
          | inr _ => exact hround.elim
          | inl b' =>
            obtain hout | ⟨z, hz, hfits⟩ := ih seen₁ c' b' s₁ hround hmoves.stocked
            · exact .inl hout
            · exact .inr ⟨z, View.shows_loop_iff.2 (.inl ⟨c', hx, hz⟩), hfits.after hmoves⟩
        | inr d =>
          cases y with
          | inl _ => exact hround.elim
          | inr a => exact .inr ⟨.ok d, View.shows_loop_iff.2 (.inr hx), .ok hmoves ⟨rfl, hround⟩⟩
  · suffices hreaches : ∀ left passed seen c b s, I seen c b s → ∀ {w : World} {x : Except Error δ},
        w.Stocked feed seen → View.rounds viewBody (viewer feed n) left c = some x →
        ∃ r, Comes (fun k => Act.loop (body k) (k - passed) b) (s, w) r ∧
          Confirms feed seen w (fun seen' d a s' bytes => bytes = [] ∧ N seen' d a s') x r from
      fun {_ _} hw hrun => hreaches _ 0 seen c b s h hw hrun
    intro left
    induction left with
    | zero =>
      intro _ _ _ _ _ _ _ _ _ hrun
      cases hrun
    | succ left ih =>
      intro passed seen c b s h w x hw hrun
      rw [View.rounds] at hrun
      split at hrun
      case h_1 c' hc' =>
        obtain ⟨seen₁, y, s₁, w₁, _, hcomes, hmoves, rfl, hxy⟩ := (hbody seen c b s h).complete hw hc'
        cases y with
        | inr _ => exact hxy.elim
        | inl b' =>
          obtain ⟨r, hcomes', hfits⟩ := ih (passed + 1) seen₁ c' b' s₁ hxy hmoves.stocked hrun
          exact ⟨r, hcomes.loop_again hcomes', hfits.after hmoves⟩
      case h_2 d' hd' =>
        obtain ⟨seen₁, y, s₁, w₁, _, hcomes, hmoves, rfl, hxy⟩ := (hbody seen c b s h).complete hw hd'
        cases y with
        | inl _ => exact hxy.elim
        | inr a =>
          cases hrun
          exact ⟨_, hcomes.loop_done, .ok hmoves ⟨rfl, hxy⟩⟩
      case h_3 error herror =>
        cases hrun
        obtain ⟨s', hcomes⟩ := (hbody seen c b s h).failing hw herror
        exact ⟨_, hcomes.loop_error, .failed error s'⟩
      case h_4 => cases hrun

end PullScript
