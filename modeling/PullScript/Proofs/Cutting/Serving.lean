import PullScript.Proofs.Eval.Yields

namespace PullScript

open Act

inductive Serving : Value → List Bytes → Prop where
  | text (bytes : Bytes) : Serving (.text bytes false) [bytes]
  | read (bytes : Bytes) : Serving (.text bytes true) []
  | chunks (parts : List Bytes) (position : Nat) : Serving (.chunks parts position) (parts.drop position)

inductive Given : Value → Bytes → Prop where
  | text (bytes : Bytes) : Given (.text bytes false) bytes
  | chunks (parts : List Bytes) : Given (.chunks parts 0) parts.flatten

namespace answerChunks

variable {parts ahead : List Bytes} {part : Bytes} {position : Nat}

theorem yields_ended (parts : List Bytes) (position : Nat) :
    Yields (fun _ => ended parts) position [] (parts.drop position).isEmpty position := by
  have hended : (parts.drop position).isEmpty = decide (parts.length ≤ position) := by
    rw [Bool.eq_iff_iff, List.isEmpty_iff, List.drop_eq_nil_iff, decide_eq_true_eq]
  rw [hended]
  exact .look (.pure _ position)

theorem yields_stream (h : parts.drop position = part :: ahead) :
    Yields (fun _ => stream parts) position part () (position + 1) := by
  have hpart : parts[position]? = some part := by
    rw [← List.head?_drop, h]
    rfl
  refine .look ?_
  simp only [hpart]
  exact (Yields.write part position).andQuietly (.change (· + 1) position)

theorem yields_drain (parts : List Bytes) (position passed : Nat) :
    ∃ last, Yields (fun fuel => loop (fun () => do
        if ← ended parts then return .inr ()
        stream parts
        return .inl ()) (fuel - passed) ()) position (parts.drop position).flatten () last := by
  generalize hahead : parts.drop position = ahead
  have hended := yields_ended parts position
  rw [hahead] at hended
  induction ahead generalizing position passed with
  | nil => exact ⟨position, .done (hended.andThen (.pure _ position))⟩
  | cons part ahead ih =>
    have hnext : parts.drop (position + 1) = ahead := by
      rw [← List.tail_drop, hahead]
      rfl
    obtain ⟨last, hrest⟩ := ih (position + 1) (passed + 1) hnext (hnext ▸ yields_ended parts (position + 1))
    refine ⟨last, .again (.andThen hended ?_) hrest⟩
    exact (yields_stream hahead).andQuietly (.pure _ (position + 1))

end answerChunks

namespace Serving

variable {v : Value} {part buffer : Bytes} {ahead : List Bytes}

theorem kind_eq (h : Serving v ahead) : v.kind = .str := by
  cases h <;> rfl

theorem yields_ended (h : Serving v ahead) :
    Yields (fun fuel => (puller fuel).textEnded) v [] ahead.isEmpty v := by
  refine .pull h.kind_eq (.look ?_)
  cases h with
  | text bytes => exact .zoom (Value.text bytes) (.look (.pure false false))
  | read bytes => exact .zoom (Value.text bytes) (.look (.pure true true))
  | chunks parts position => exact .zoom (Value.chunks parts) (answerChunks.yields_ended parts position)

theorem yields_stream (h : Serving v (part :: ahead)) :
    ∃ v', Serving v' ahead ∧ Yields (fun fuel => (puller fuel).stream) v part () v' := by
  generalize hall : part :: ahead = all at h
  cases h with
  | text bytes =>
    obtain ⟨rfl, rfl⟩ := List.cons.inj hall
    refine ⟨_, .read part, .pull rfl (.look (.zoom (Value.text part) (.look ?_)))⟩
    exact (Yields.write part false).andQuietly (.put false true)
  | read bytes => cases hall
  | chunks parts position =>
    have hahead : parts.drop (position + 1) = ahead := by
      rw [← List.tail_drop, ← hall]
      rfl
    refine ⟨.chunks parts (position + 1), ?_, .pull rfl (.look ?_)⟩
    · rw [← hahead]
      exact .chunks parts (position + 1)
    · exact .zoom (Value.chunks parts) (answerChunks.yields_stream hall.symm)

theorem yields_streamMore (h : Serving v (part :: ahead)) (buffer : Bytes) :
    ∃ v', Serving v' ahead ∧ Yields (fun fuel => streamMore (puller fuel)) (buffer, v) [] () (buffer ++ part, v') := by
  obtain ⟨v', hv', hstream⟩ := h.yields_stream
  exact ⟨v', hv', hstream.gather buffer⟩

end Serving

namespace Given

variable {v : Value} {bytes : Bytes}

theorem serving (h : Given v bytes) : ∃ ahead, Serving v ahead ∧ ahead.flatten = bytes := by
  cases h with
  | text => exact ⟨[bytes], .text bytes, by simp⟩
  | chunks parts => exact ⟨parts, .chunks parts 0, rfl⟩

theorem copy_eq (h : Given v bytes) : v.copy = v := by
  cases h <;> rfl

theorem ty_eq (h : Given v bytes) : v.ty = .str false := by
  cases h <;> rfl

theorem yields_readAll (h : Given v bytes) :
    ∃ v', Yields (fun fuel => readAll (puller fuel)) v [] bytes v' := by
  cases h with
  | text =>
    refine ⟨.text bytes true, .gathered (.pull rfl (.look (.zoom (Value.text bytes) ?_)))⟩
    exact (Yields.write bytes false).andQuietly (.put false true)
  | chunks parts =>
    obtain ⟨last, hdrain⟩ := answerChunks.yields_drain parts 0 0
    exact ⟨.chunks parts last, .gathered (.pull rfl (.look (.zoom (Value.chunks parts) hdrain)))⟩

end Given

end PullScript
