import PullScript.Proofs.Eval.Ends
import PullScript.Proofs.Limit
import PullScript.Proofs.View.Arguments

namespace PullScript

open Act

variable {σ τ α β : Type} {feed : Feed} {seen : Reach}
variable {w : World} {tap : Nat} {rebuild : σ → τ}

def Tap.Drained (tap : Tap) (stock : Stock) : Prop :=
  tap.stock = stock ∧ stock.bytes.length ≤ tap.upto

theorem Tap.Drained.fillFor {tap : Tap} {stock : Stock} (h : tap.Drained stock) (hbroken : stock.broken = none)
    (offset : Nat) :
    ∃ tap', tap.fillFor offset = (tap', none) ∧ tap'.Drained stock ∧ (tap'.upto ≤ offset → tap'.ended = true) := by
  obtain ⟨rfl, hlength⟩ := h
  by_cases hoffset : tap.upto ≤ offset
  · cases hended : tap.ended with
    | true => exact ⟨tap, by simp [Tap.fillFor, fill, hended], ⟨rfl, hlength⟩, fun _ => hended⟩
    | false =>
      cases hreads : tap.reads with
      | nil =>
        refine ⟨{ tap with pulls := tap.pulls + 1, ended := true }, ?_, ⟨?_, hlength⟩, fun _ => rfl⟩ <;>
          simp [Tap.fillFor, fill, stock, Stock.ofReads, hended, hreads, hoffset]
      | cons first reads =>
        cases first with
        | failure message => simp [stock, Stock.ofReads, hended, hreads] at hbroken
        | chunk bytes =>
          cases bytes with
          | nil =>
            refine ⟨{ tap with pulls := tap.pulls + 1, reads, ended := true }, ?_, ⟨?_, hlength⟩, fun _ => rfl⟩ <;>
              simp [Tap.fillFor, fill, stock, Stock.ofReads, hended, hreads, hoffset]
          | cons byte bytes =>
            simp [stock, Stock.ofReads, hended, hreads, upto] at hlength
  · exact ⟨tap, by simp [Tap.fillFor, hoffset], ⟨rfl, hlength⟩, fun h => absurd h hoffset⟩

/-- The inputs that do not break, and of which all bytes have been seen, have been read to their end. -/
def World.Drained (feed : Feed) (seen : Reach) (w : World) : Prop :=
  ∀ tap, (feed tap).broken = none → (feed tap).bytes.length ≤ seen tap → (w.tapAt tap).Drained (feed tap)

theorem World.Stocked.drained (h : w.Stocked feed seen) : w.Drained feed seen :=
  fun tap _ hlength => ⟨h.stock tap, Nat.le_trans hlength (h.seen tap)⟩

section

variable (h : w.Drained feed seen)
include h

theorem World.Drained.withTap {t : Tap}
    (ht : (feed tap).broken = none → (feed tap).bytes.length ≤ seen tap → t.Drained (feed tap)) :
    (w.withTap tap t).Drained feed seen := by
  intro other hbroken hlength
  by_cases hother : other = tap
  · subst hother
    rw [tapAt_withTap_eq]
    split
    · exact ht hbroken hlength
    · exact h other hbroken hlength
  · rw [tapAt_withTap_of_ne hother]
    exact h other hbroken hlength

theorem World.Drained.filled {offset : Nat} {t : Tap} {message : Option String}
    (hfill : (w.tapAt tap).fillFor offset = (t, message)) (hbroken : (feed tap).broken = none)
    (hlength : (feed tap).bytes.length ≤ seen tap) : t.Drained (feed tap) ∧ (t.upto ≤ offset → t.ended = true) := by
  obtain ⟨t', hfill', ht'⟩ := (h tap hbroken hlength).fillFor hbroken offset
  obtain rfl := (Prod.mk.inj (hfill.symm.trans hfill')).1
  exact ht'

theorem World.Drained.fillTap (tap offset : Nat) (s : σ) :
    (Result.world (Act.fillTap tap offset (s, w))).Drained feed seen := by
  rw [fillTap_run]
  cases hfill : (w.tapAt tap).fillFor offset with
  | mk t message =>
    have hfilled : (w.withTap tap t).Drained feed seen :=
      h.withTap fun hbroken hlength => (h.filled hfill hbroken hlength).1
    cases message <;> exact hfilled

theorem World.Drained.write (bytes : Bytes) (s : σ) :
    (Result.world (Act.write bytes (s, w))).Drained feed seen := by
  rw [write_run]
  cases w.out.write bytes with
  | mk out room => cases room <;> exact h

end

theorem Act.Result.world_gathered (out : Sink) (result : Act.Result σ Unit) :
    (Result.gathered out result).world = { result.world with out } := by
  cases result <;> rfl

theorem Act.Result.world_gather (buffer : Bytes) (out : Sink) (result : Act.Result σ α) :
    (Result.gather buffer out result).world = { result.world with out } := by
  cases result <;> rfl

theorem Act.Result.world_orNone (result : Act.Result σ (Option α)) : (Result.orNone result).world = result.world := by
  cases result with
  | ok a s => rfl
  | error stop s => cases stop <;> rfl

theorem Act.Steps.drained {error : Error → Prop} {loud : Bool} {act : Act σ α} (h : Steps error loud act) (s : σ)
    (hw : w.Drained feed seen) : (Result.world (act (s, w))).Drained feed seen := by
  induction h generalizing w with
  | pure a => exact hw
  | fail _ => exact hw
  | outOfFuel => exact hw
  | look => exact hw
  | change f => exact hw
  | readMeter meter =>
    simp only [Act.readMeter, bind_run, world_run, changeWorld_run]
    cases (w.meters.getD meter { n := 0 }).failure <;> exact hw
  | fillTap tap offset => exact hw.fillTap tap offset s
  | write bytes => exact hw.write bytes s
  | streamTap tap offset =>
    rw [Act.streamTap, bind_run, fillTap_run]
    cases hfill : (w.tapAt tap).fillFor offset with
    | mk t message =>
      have ht (hbroken : (feed tap).broken = none) (hlength : (feed tap).bytes.length ≤ seen tap) :
          t.Drained (feed tap) :=
        (hw.filled hfill hbroken hlength).1
      cases message with
      | some message => exact hw.withTap ht
      | none =>
        simp only [bind_run, write_run]
        cases (w.withTap tap t).out.write (t.after offset) with
        | mk out room => cases room with
          | false => exact hw.withTap ht
          | true => exact World.Drained.withTap (w := { w.withTap tap t with out }) (hw.withTap ht) ht
  | bind _ _ ih ihnext =>
    rw [bind_run]
    split
    case h_1 a s' hact => exact ihnext a s'.1 (by simpa [hact, Result.world] using ih s hw)
    case h_2 stop s' hact => simpa [hact, Result.world] using ih s hw
  | zoom part rebuild _ ih =>
    rw [zoom_run, Result.world_on]
    exact ih part hw
  | holding values _ ih =>
    rw [holding_run, Result.world_on]
    exact ih s (w := { w with around := values :: w.around }) hw
  | aside other _ ih =>
    rw [aside_run, Result.world_beside, holding_run, Result.world_on]
    exact ih other (w := { w with around := _ :: w.around }) hw
  | gathered _ ih =>
    rw [gathered_run, Result.world_gathered]
    exact ih s (w := { w with out := {} }) hw
  | gather _ ih =>
    rw [gather_run, Result.world_gather]
    exact ih s.2 (w := { w with out := {} }) hw
  | intoSink sink _ ih =>
    rw [intoSink_run, Result.world_on]
    exact ih s (w := { w with out := w.sinks.getD sink {} }) hw
  | orNone _ ih =>
    rw [Result.world_orNone]
    exact ih s hw

/-- Inputs are at their end as far as is known, and nothing has been streamed since `out`. -/
structure World.Resting (feed : Feed) (seen : Reach) (out : Sink) (w : World) : Prop where
  drained : w.Drained feed seen
  out_eq : w.out = out

instance : Holdable (World.Resting feed seen) :=
  ⟨fun _ hw => ⟨hw.1, hw.2⟩⟩

/-- From `s`, work ends with an answer and a state in `Q`, or without an answer in a state in `E`. It
streams nothing and leaves inputs at their end. -/
abbrev Lasts (feed : Feed) (seen : Reach) (s : σ) (act : Act σ α) (Q : α → σ → Prop) (E : σ → Prop) : Prop :=
  Ends (fun _ => True) (World.Resting feed seen) s act Q E

namespace Lasts

variable {s : σ} {act : Act σ α} {Q : α → σ → Prop} {E : σ → Prop}

theorem loop {body : β → Act σ (β ⊕ α)} {b : β} (hE : E s)
    (h : Lasts feed seen s (body b) (fun round s' => ∃ a, round = .inr a ∧ Q a s') E) (fuel : Nat) :
    Lasts feed seen s (Act.loop body fuel b) Q E := by
  cases fuel with
  | zero => exact .outOfFuel fun _ => hE
  | succ fuel =>
    refine h.bind ?_
    rintro _ s' ⟨a, rfl, ha⟩
    exact .pure ha

theorem any (h : Usual false act) (hQ : ∀ a s', Q a s') (hE : ∀ s', E s') : Lasts feed seen s act Q E := by
  intro out w hw
  have hout := (h.quiet_run.out_eq s w).trans hw.out_eq
  have hdrained := h.drained s hw.drained
  cases hact : act (s, w) with
  | ok a s' =>
    rw [hact] at hout hdrained
    exact ⟨hQ a _, hdrained, hout⟩
  | error stop s' =>
    rw [hact] at hout hdrained
    exact fun _ => ⟨hE _, hdrained, hout⟩

end Lasts

/-- From `s`, work answers in `R` if at all, and leaves a state in `I` in any case. -/
abbrev Stays (feed : Feed) (seen : Reach) (I : σ → Prop) (R : α → Prop) (s : σ) (act : Act σ α) : Prop :=
  Lasts feed seen s act (fun a s' => I s' ∧ R a) I

namespace Stays

variable {I : σ → Prop} {J : τ → Prop} {R : α → Prop} {s : σ} {t : τ} {act : Act σ α}

section

variable (h : Stays feed seen I R s act)
include h

theorem back {K : σ → Prop} (hI : ∀ s, I s → K s) : Stays feed seen K R s act :=
  h.imp (fun _ s ⟨hs, ha⟩ => ⟨hI s hs, ha⟩) fun s hs => hI s hs

theorem zoom (hback : ∀ s, I s → J (rebuild s)) :
    Stays feed seen J R t (Act.zoom s rebuild act) :=
  Ends.zoom (h.back (K := fun s => J (rebuild s)) hback)

theorem within [Holder τ] [Inhabited σ] (hback : ∀ s, I s → J (rebuild s)) :
    Stays feed seen J R t (Act.within s rebuild act) :=
  zoom (h.holding _) hback

theorem onFirst [Holder σ] [Holder τ] [Inhabited σ] {J : σ × τ → Prop}
    (hback : ∀ s, I s → J (s, t)) : Stays feed seen J R (s, t) (Act.onFirst act) :=
  Ends.look (within h hback)

theorem onSecond [Holder σ] [Holder τ] [Inhabited σ] {J : τ × σ → Prop}
    (hback : ∀ s, I s → J (t, s)) : Stays feed seen J R (t, s) (Act.onSecond act) :=
  Ends.look (within h hback)

end

end Stays

end PullScript
