import PullScript.Eval.Pull
import PullScript.Proofs.Eval.Act
import PullScript.Proofs.World.Tap

namespace PullScript

def World.tapAt (w : World) (tap : Nat) : Tap :=
  w.taps.getD tap { reads := [] }

def World.withTap (w : World) (tap : Nat) (t : Tap) : World :=
  { w with taps := w.taps.setIfInBounds tap t }

/-- The least offset of the copies held around, of which none is past `upto`. -/
def World.oldestAround (w : World) (tap upto : Nat) : Nat :=
  (w.offsetsAround tap).foldl min upto

theorem World.tapAt_withTap {w : World} {tap : Nat} (h : tap < w.taps.size) (t : Tap) :
    (w.withTap tap t).tapAt tap = t := by
  simp [tapAt, withTap, h]

open Act

theorem fillTap_run {σ : Type} (tap offset : Nat) (s : σ) (w : World) :
    (fillTap tap offset : Act σ Tap) (s, w) =
      match (w.tapAt tap).fillFor offset with
      | (t, some message) => .error (.failed (.io message)) (s, w.withTap tap t)
      | (t, none) => .ok t (s, w.withTap tap t) := by
  simp only [fillTap, bind_run, world_run, World.tapAt, World.withTap]
  obtain ⟨t, message⟩ := (w.taps.getD tap { reads := [] }).fillFor offset
  cases message <;> rfl

theorem write_run {σ : Type} (bytes : Bytes) (s : σ) (w : World) :
    (write bytes : Act σ Unit) (s, w) =
      match w.out.write bytes with
      | (out, true) => .ok () (s, { w with out })
      | (out, false) => .error (.failed (.io "sink full")) (s, { w with out }) :=
  rfl

theorem answerInput_ended_run (tap offset : Nat) (w : World) :
    answerInput.ended tap (offset, w) =
      match (w.tapAt tap).fillFor offset with
      | (t, some message) => .error (.failed (.io message)) (offset, w.withTap tap t)
      | (t, none) => .ok (t.atEnd offset) (offset, w.withTap tap t) := by
  simp only [answerInput.ended, bind_run, look_run, fillTap_run]
  obtain ⟨t, message⟩ := (w.tapAt tap).fillFor offset
  cases message <;> rfl

theorem answerInput_stream_run (tap offset : Nat) (w : World) :
    answerInput.stream tap (offset, w) =
      match (w.tapAt tap).fillFor offset with
      | (t, some message) => .error (.failed (.io message)) (offset, w.withTap tap t)
      | (t, none) =>
        match w.out.write (t.after offset) with
        | (out, true) => .ok () (t.upto, { w.withTap tap (t.trim (w.oldestAround tap t.upto)) with out })
        | (out, false) => .error (.failed (.io "sink full")) (offset, { w.withTap tap t with out }) := by
  simp only [answerInput.stream, streamTap, bind_run, look_run, fillTap_run]
  obtain ⟨t, message⟩ := (w.tapAt tap).fillFor offset
  cases message with
  | some message => rfl
  | none =>
    have hout : (w.withTap tap t).out = w.out := rfl
    simp only [write_run, hout]
    obtain ⟨out, _ | _⟩ := w.out.write (t.after offset)
    · rfl
    · simp only [world_run, changeWorld_run, put_run, pure_run, World.withTap,
        Array.setIfInBounds_setIfInBounds]
      rfl

section Inversion

variable {fuel tap offset : Nat} {primary ended : Bool} {value : Value} {stop : Stop} {w w' : World}

theorem pull_input_run (ask : TextAsk) : pull (fuel + 1) (.text ask) (.input tap offset primary, w) =
    Result.on (Value.input tap · primary) id (answerInput fuel tap ask (offset, w)) :=
  zoom_run offset (Value.input tap · primary) (answerInput fuel tap ask) (.input tap offset primary) w

theorem ended_input_ok
    (h : pull (fuel + 1) (.text .ended) (.input tap offset primary, w) = .ok ended (value, w')) :
    ∃ t, (w.tapAt tap).fillFor offset = (t, none) ∧ ended = t.atEnd offset ∧
      value = .input tap offset primary ∧ w' = w.withTap tap t := by
  rw [pull_input_run, Result.on_eq_ok_iff] at h
  obtain ⟨⟨left, _⟩, h, rfl, rfl⟩ := h
  rw [answerInput, answerInput_ended_run] at h
  split at h <;> cases h
  case h_2 t hfill => exact ⟨t, hfill, rfl, rfl, rfl⟩

theorem stream_input_ok
    (h : pull (fuel + 1) (.text .stream) (.input tap offset primary, w) = .ok () (value, w')) :
    ∃ t out, (w.tapAt tap).fillFor offset = (t, none) ∧ w.out.write (t.after offset) = (out, true) ∧
      value = .input tap t.upto primary ∧
      w' = { w.withTap tap (t.trim (w.oldestAround tap t.upto)) with out } := by
  rw [pull_input_run, Result.on_eq_ok_iff] at h
  obtain ⟨⟨left, _⟩, h, rfl, rfl⟩ := h
  rw [answerInput, answerInput_stream_run] at h
  split at h
  case h_1 => cases h
  case h_2 t hfill =>
    split at h <;> cases h
    case h_1 out hwrite => exact ⟨t, out, hfill, hwrite, rfl, rfl⟩

theorem input_error {ask : TextAsk} (hask : ask = .stream ∨ ask = .ended)
    (h : pull (fuel + 1) (.text ask) (.input tap offset primary, w) = .error stop (value, w')) :
    ∃ t message out, (w.tapAt tap).fillFor offset = (t, message) ∧
      value = .input tap offset primary ∧ w' = { w.withTap tap t with out } := by
  rw [pull_input_run] at h
  obtain rfl | rfl := hask
  · rw [answerInput, answerInput_stream_run] at h
    split at h
    case h_1 t message hfill =>
      cases h
      exact ⟨t, some message, _, hfill, rfl, rfl⟩
    case h_2 t hfill =>
      split at h <;> cases h
      case h_2 out hwrite => exact ⟨t, none, out, hfill, rfl, rfl⟩
  · rw [answerInput, answerInput_ended_run] at h
    split at h <;> cases h
    case h_1 t message hfill => exact ⟨t, some message, _, hfill, rfl, rfl⟩

end Inversion

end PullScript
