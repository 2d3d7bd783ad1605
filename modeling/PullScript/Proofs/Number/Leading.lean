import Mathlib.Data.List.TakeWhile
import PullScript.Number.Leading

namespace PullScript.Number

open Bytes

def Stops (text : Bytes) : Prop :=
  ∃ b ∈ text, isNumberByte b = false

def splitSign : Bytes → Bool × Bytes
  | 0x2d :: rest => (true, rest)
  | 0x2b :: rest => (false, rest)
  | rest => (false, rest)

def fraction : Bytes → Bytes
  | 0x2e :: rest => rest.takeWhile isDigit
  | _ => []

theorem ofLeading_eq (text : Bytes) :
    ofLeading text =
      let unsigned := (splitSign (text.dropWhile isBlank)).2
      let whole := unsigned.takeWhile isDigit
      let decimals := fraction (unsigned.dropWhile isDigit)
      if whole.isEmpty && decimals.isEmpty then 0.0
      else
        let x := ofDigits (digitChars whole) (digitChars decimals)
        if (splitSign (text.dropWhile isBlank)).1 then -x else x := by
  rfl

namespace Stops

variable {text : Bytes}

theorem tail {b : UInt8} (h : Stops (b :: text)) (hb : isNumberByte b = true) : Stops text := by
  obtain ⟨stop, hmem, hstop⟩ := h
  obtain rfl | hmem := List.mem_cons.1 hmem
  · rw [hb] at hstop
    cases hstop
  · exact ⟨stop, hmem, hstop⟩

theorem isDigit_eq_false {b : UInt8} (h : isNumberByte b = false) : isDigit b = false := by
  simp_all [isNumberByte]

section

variable (h : Stops text)
include h

theorem splitSign_append (more : Bytes) :
    splitSign (text ++ more) = ((splitSign text).1, (splitSign text).2 ++ more) := by
  cases text with
  | nil => simp [Stops] at h
  | cons b rest =>
    by_cases hminus : b = 0x2d
    · subst hminus
      rfl
    · by_cases hplus : b = 0x2b
      · subst hplus
        rfl
      · simp [Number.splitSign, hminus, hplus]

theorem splitSign : Stops (splitSign text).2 := by
  fun_cases Number.splitSign text with
  | case1 rest => exact h.tail rfl
  | case2 rest => exact h.tail rfl
  | case3 => exact h

theorem dropWhile : Stops (text.dropWhile isDigit) := by
  obtain ⟨stop, hmem, hstop⟩ := h
  refine ⟨stop, ?_, hstop⟩
  rw [← List.takeWhile_append_dropWhile (p := isDigit) (l := text)] at hmem
  obtain hdigit | hmem := List.mem_append.1 hmem
  · have := List.mem_takeWhile_imp hdigit
    rw [isDigit_eq_false hstop] at this
    cases this
  · exact hmem

theorem ne_nil : text ≠ [] := by
  rintro rfl
  obtain ⟨stop, hmem, -⟩ := h
  cases hmem

theorem dropWhile_append (more : Bytes) :
    (text ++ more).dropWhile isDigit = text.dropWhile isDigit ++ more := by
  rw [List.dropWhile_append, if_neg]
  rw [List.isEmpty_iff]
  exact h.dropWhile.ne_nil

theorem takeWhile_append (more : Bytes) :
    (text ++ more).takeWhile isDigit = text.takeWhile isDigit := by
  rw [List.takeWhile_append, if_neg]
  intro hall
  have hlength := congrArg List.length (List.takeWhile_append_dropWhile (p := isDigit) (l := text))
  rw [List.length_append] at hlength
  have hpos := List.length_pos_iff.2 h.dropWhile.ne_nil
  omega

theorem fraction_append (more : Bytes) :
    fraction (text ++ more) = fraction text := by
  cases text with
  | nil => exact absurd rfl h.ne_nil
  | cons b rest =>
    by_cases hpoint : b = 0x2e
    · subst hpoint
      exact (h.tail rfl).takeWhile_append more
    · simp [fraction, hpoint]

end

end Stops

theorem stops_of_mayGoOn {text : Bytes} (h : mayGoOn text = false) :
    Stops (text.dropWhile isBlank) := by
  simpa [Stops, mayGoOn] using h

theorem dropWhile_isBlank_append {text : Bytes} (h : mayGoOn text = false) (more : Bytes) :
    (text ++ more).dropWhile isBlank = text.dropWhile isBlank ++ more := by
  rw [List.dropWhile_append, if_neg]
  rw [List.isEmpty_iff]
  exact (stops_of_mayGoOn h).ne_nil

theorem mayGoOn_append {text : Bytes} (h : mayGoOn text = false) (more : Bytes) :
    mayGoOn (text ++ more) = false := by
  rw [mayGoOn, dropWhile_isBlank_append h more, List.all_append]
  rw [mayGoOn] at h
  rw [h, Bool.false_and]

theorem ofLeading_append {text : Bytes} (h : mayGoOn text = false) (more : Bytes) :
    ofLeading (text ++ more) = ofLeading text := by
  have hstops := stops_of_mayGoOn h
  simp only [ofLeading_eq, dropWhile_isBlank_append h more, hstops.splitSign_append more,
    hstops.splitSign.takeWhile_append more, hstops.splitSign.dropWhile_append more,
    hstops.splitSign.dropWhile.fraction_append more]

end PullScript.Number
