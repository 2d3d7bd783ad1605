import PullScript.Proofs.Input.Persisting
import PullScript.Proofs.Text.LeadingNumbers

namespace PullScript

open Act

variable {σ τ α β : Type} {name : String} {ty : Ty} {args : List Value} {n : Nat}

namespace Bound

end Bound

namespace Value

end Value

theorem gathered_of_streamMore {p : Puller} {v v' : Value} {w w' : World} {chunk : Bytes}
    (h : streamMore p (([], v), w) = .ok () ((chunk, v'), w')) : gathered p.stream (v, w) = .ok chunk (v', w') := by
  rw [streamMore, gather_run] at h
  rw [gathered_run]
  cases hrun : p.stream (v, { w with out := {} }) <;> rw [hrun] at h <;> cases h
  rfl

/-- Work over an input that has `rest` ahead gives an answer in `Q`, or fails by one of at most `tries` reads that fail and
leaves, where the input was, the input with less ahead. -/
def Consumes (tap : Nat) (primary : Bool) (tries : Nat) (rest : Bytes) (make : Value → σ) (Q : α → Prop) :
    Act.Result σ α → Prop :=
  Tried (fun a _ => Q a) fun s => ∃ offset, ∃ fewer < tries, ∃ lost rest', s.1 = make (.input tap offset primary) ∧
    rest = lost ++ rest' ∧ s.2.Ahead tap offset fewer rest'

theorem Consumes.inside {tap tries : Nat} {primary : Bool} {rest : Bytes} {make : Value → σ} {put : σ → τ} {s : σ}
    {inner : Act σ α} {outer : Act τ α} {w : World} {Q : α → Prop}
    (hinner : ∀ around, Consumes tap primary tries rest make Q (inner (s, { w with around }))) (h : Inner put s inner outer) :
    Consumes tap primary tries rest (put ∘ make) Q (outer (put s, w)) := by
  obtain ⟨around, hrun⟩ := h w
  rw [hrun]
  refine Tried.on ((hinner around).imp (fun _ _ ha => ha) ?_)
  rintro s' ⟨offset, fewer, hfewer, lost, rest', hs', hrest, hahead⟩
  exact ⟨offset, fewer, hfewer, lost, rest', congrArg put hs', hrest, hahead⟩

namespace World.Ahead

variable {w : World} {tap offset tries : Nat} {rest : Bytes} (h : w.Ahead tap offset tries rest) (hfuel : rest.length < n)
  (primary : Bool)
include h hfuel

theorem readWhile (more : Bytes → Bool) : Consumes tap primary tries rest id
    (fun bytes => ∃ rest', rest = bytes ++ rest' ∧ (more bytes = false ∨ rest' = []))
    (readWhile (puller n) more (.input tap offset primary, w)) := by
  obtain _ | n := n
  · omega
  -- What has been read and what is ahead stay the same together.
  refine Tried.loop (I := fun rest' soFar s => ∃ offset' w', s = (.input tap offset' primary, w') ∧
    w'.Ahead tap offset' tries rest' ∧ rest = soFar ++ rest') ?_ ⟨offset, w, rfl, h, rfl⟩ hfuel
  rintro rest' soFar _ ⟨offset', w', rfl, hahead, rfl⟩
  cases hmore : more soFar with
  | false => exact ⟨rest', rfl, .inl hmore⟩
  | true =>
    refine ((hahead.textEnded n primary).imp (fun _ _ => id) ?_).bind ?_
    · rintro ⟨_, w₁⟩ ⟨rfl, -, fewer, hfewer, hahead₁⟩
      exact ⟨offset', fewer, hfewer, soFar, rest', rfl, rfl, hahead₁⟩
    · rintro _ ⟨_, w₁⟩ ⟨rfl, hahead₁, rfl, hupto⟩
      by_cases hrest : rest' = []
      · subst hrest
        exact ⟨[], rfl, .inr rfl⟩
      · rw [if_neg (by simpa using hrest)]
        obtain ⟨chunk, rest₂, offset₂, w₂, hchunk, rfl, hahead₂, hstreamed⟩ := hahead₁.streams (hupto hrest) n primary []
        have hpos := List.length_pos_iff.2 hchunk
        rw [bind_of_ok (gathered_of_streamMore hstreamed)]
        refine ⟨rest₂, ?_, offset₂, w₂, rfl, hahead₂, (List.append_assoc ..).symm⟩
        rw [List.length_append]
        omega

/-- A call for the number in front of an input gives it, or leaves a call for the number in front of what is then ahead. -/
theorem leadingNumber : Consumes tap primary tries rest (Value.leadingNumber · none) (· = Number.ofLeading rest)
    ((puller (n + 1)).number (Value.leadingNumber (.input tap offset primary) none, w)) := by
  let b (v : Value) : Bound := ⟨"tonum", .num, [v]⟩
  have hrun (around : List (List Value)) : Consumes tap primary tries rest b (· = Number.ofLeading rest)
      (Calculation.leadingNumber.run (puller n) (b (.input tap offset primary), { w with around })) := by
    refine Tried.bind (Consumes.inside (w := { w with around })
      (fun around' => readWhile (w := { w with around := around' }) h hfuel primary _) (.arg [] _ _)) ?_
    rintro bytes s ⟨rest', rfl, hstop | rfl⟩
    · exact (Number.ofLeading_append hstop rest').symm
    · exact congrArg _ (List.append_nil _).symm
  have hcalculated (around : List (List Value)) : Consumes tap primary tries rest (fun v => (b v, none))
      (· = Number.ofLeading rest)
      (calculated (puller n) .leadingNumber ((b (.input tap offset primary), none), { w with around })) := by
    rw [calculated, bind_run, look_run]
    exact Tried.bind (Consumes.inside (w := { w with around }) hrun (.onFirst _ none _)) fun _ _ hx => hx
  exact Consumes.inside hcalculated
    (.within (fun s : Bound × Option Float => s.1.suspend (.calculate .leadingNumber s.2)) (b _, none) _)

end World.Ahead

namespace Value

end Value

end PullScript
