import PullScript.World.Tap

namespace PullScript

def Read.bytes : Read → Bytes
  | chunk bytes => bytes
  | failure _ => []

namespace Tap

variable {tap tap' : Tap} {offset : Nat} {message : Option String}

theorem after_eq (tap : Tap) (offset : Nat) : tap.after offset = tap.read.toList.drop offset := by
  simp [after, List.take_of_length_le]

theorem upto_eq (tap : Tap) : tap.upto = tap.read.toList.length := by
  simp [upto]

@[simp]
theorem read_trim (oldest : Nat) : (tap.trim oldest).read = tap.read :=
  rfl

@[simp]
theorem upto_trim (oldest : Nat) : (tap.trim oldest).upto = tap.upto :=
  rfl

/-- What has become of a tap that was filled for a copy at `offset`: the reads in `asked` were made,
at most one of them, and the bytes that they gave were added. -/
structure Filled (tap : Tap) (offset : Nat) (asked : List Read) (tap' : Tap)
    (message : Option String) : Prop where
  reads_eq : tap.reads = asked ++ tap'.reads
  read_eq : tap'.read.toList = tap.read.toList ++ asked.flatMap Read.bytes
  base_eq : tap'.base = tap.base
  pulls : tap'.pulls = tap.pulls ∨
    tap'.pulls = tap.pulls + 1 ∧ tap.upto ≤ offset ∧ tap.ended = false
  unasked : tap'.pulls = tap.pulls → tap' = tap
  asked_le : asked.length ≤ tap'.pulls - tap.pulls
  ended_iff : tap'.ended = true ↔
    tap.ended = true ∨ .chunk [] ∈ asked ∨ asked.length < tap'.pulls - tap.pulls

theorem Filled.refl (tap : Tap) (offset : Nat) : Filled tap offset [] tap none where
  reads_eq := rfl
  read_eq := by simp
  base_eq := rfl
  pulls := .inl rfl
  unasked _ := rfl
  asked_le := Nat.zero_le _
  ended_iff := by simp

theorem fillFor_filled (h : tap.fillFor offset = (tap', message)) :
    ∃ asked, Filled tap offset asked tap' message := by
  by_cases hseen : tap.upto ≤ offset
  · cases hended : tap.ended with
    | true =>
      simp only [fillFor, hseen, if_true, fill, hended] at h
      cases h
      exact ⟨[], .refl tap offset⟩
    | false =>
      simp only [fillFor, hseen, if_true, fill, hended, Bool.false_eq_true, if_false] at h
      -- The reads made are none at the end of the reader, and the one in front otherwise.
      refine ⟨tap.reads.take 1, ?_⟩
      split at h <;> cases h
      case h_1 hreads =>
        constructor <;> simp [hreads, hseen, hended]
      case h_2 text reads hreads =>
        constructor <;> simp [hreads, hseen, hended, Read.bytes]
      case h_3 reads hreads =>
        constructor <;> simp [hreads, hseen, hended, Read.bytes]
      case h_4 bytes reads hnonempty hreads =>
        have hbytes : [] ≠ bytes := fun hnil => hnonempty hnil.symm
        constructor <;> simp [hreads, hseen, hended, Read.bytes, hbytes]
  · simp only [fillFor, hseen, if_false] at h
    cases h
    exact ⟨[], .refl tap offset⟩

end Tap

end PullScript
