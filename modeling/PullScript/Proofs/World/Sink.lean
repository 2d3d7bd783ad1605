import PullScript.World.Basic

namespace PullScript.Sink

variable {sink out : Sink} {bytes : Bytes}

theorem bytes_of_write (h : sink.write bytes = (out, true)) : out.bytes = sink.bytes ++ bytes := by
  unfold write at h
  split at h
  · cases h
    simp [Sink.bytes]
  · obtain ⟨rfl, hroom⟩ := Prod.mk.inj h
    rw [decide_eq_true_eq] at hroom
    simp [Sink.bytes, List.take_of_length_le hroom]

theorem write_nil (sink : Sink) : sink.write [] = (sink, true) := by
  unfold write
  split <;> simp

theorem write_of_limit_none (h : sink.limit = none) (bytes : Bytes) :
    sink.write bytes = ({ sink with written := sink.written ++ bytes }, true) := by
  simp [write, h]

end PullScript.Sink
