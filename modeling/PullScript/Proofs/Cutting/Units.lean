import PullScript.Proofs.Cutting.Serving
import PullScript.Proofs.Text.Units

namespace PullScript.Cutter

open Act

variable {v : Value} {ahead : List Bytes} {pending : Bytes}

def drain (p : Puller) (unit : TextUnit) : Act (Cutter × Value) (List Bytes) :=
  loop (fun units => do
    match ← next p unit with
    | some bytes => return .inl (units ++ [bytes])
    | none => return .inr units) p.fuel []

theorem yields_streamMore {part : Bytes} (cutter : Cutter) (h : Serving v (part :: ahead)) :
    ∃ v', Serving v' ahead ∧ Yields (fun fuel => onPending (streamMore (puller fuel))) (cutter, v) [] ()
      ({ cutter with pending := cutter.pending ++ part }, v') := by
  obtain ⟨v', hv', hmore⟩ := h.yields_streamMore cutter.pending
  exact ⟨v', hv', .look (hmore.within _)⟩

theorem yields_settle (unit : TextUnit) (cutter : Cutter) (passed : Nat) (h : Serving v ahead) :
    ∃ pending' v' ahead', Serving v' ahead' ∧
      pending' ++ ahead'.flatten = cutter.pending ++ ahead.flatten ∧
      ((unit.front pending').settled = true ∨ ahead' = []) ∧
      Yields (fun fuel => loop (fun () => do
        let pending := (← look).1.pending
        if !pending.isEmpty && (unit.front pending).settled then return .inr ()
        if ← onSecond (puller fuel).textEnded then return .inr ()
        onPending (streamMore (puller fuel))
        return .inl ()) (fuel - passed) ()) (cutter, v) [] () ({ cutter with pending := pending' }, v') := by
  induction ahead generalizing cutter v passed with
  | nil =>
    refine ⟨cutter.pending, v, [], h, rfl, .inr rfl, .done (.look ?_)⟩
    simp only
    split
    · exact .pure _ _
    · exact (h.yields_ended.onSecond cutter).andThen (.pure _ _)
  | cons part ahead ih =>
    by_cases hsettled : (!cutter.pending.isEmpty && (unit.front cutter.pending).settled) = true
    · refine ⟨cutter.pending, v, part :: ahead, h, rfl, .inl (Bool.and_eq_true_iff.1 hsettled).2, .done (.look ?_)⟩
      simp only [hsettled, if_true]
      exact .pure _ _
    · obtain ⟨v₁, hv₁, hmore⟩ := yields_streamMore cutter h
      obtain ⟨pending', v', ahead', hv', hbytes, hend, hloop⟩ :=
        ih { cutter with pending := cutter.pending ++ part } (passed + 1) hv₁
      refine ⟨pending', v', ahead', hv', ?_, hend, .againQuietly (.look ?_) hloop⟩
      · rw [hbytes, List.flatten_cons, List.append_assoc]
      · simp only [hsettled]
        exact (h.yields_ended.onSecond cutter).andThen (hmore.andThen (.pure _ _))

theorem yields_next (unit : TextUnit) (cutter : Cutter) (h : Serving v ahead) {left : Bytes}
    (hleft : cutter.pending ++ ahead.flatten = left) :
    ∃ pending' v' ahead', Serving v' ahead' ∧
      pending' ++ ahead'.flatten = left.drop (max (unit.front left).size 1) ∧
      Yields (fun fuel => next (puller fuel) unit) (cutter, v) []
        (if left = [] then none else some (unit.cutFront left)) ({ cutter with pending := pending' }, v') := by
  obtain ⟨pending, v₁, ahead₁, hv₁, hbytes, hend, hsettle⟩ := yields_settle unit cutter 0 h
  rw [hleft] at hbytes
  subst hbytes
  by_cases hempty : pending = []
  · -- Nothing is pending only when nothing is left.
    have hahead : ahead₁ = [] := by
      refine hend.resolve_left fun hsettled => ?_
      rw [hempty] at hsettled
      cases hsettled
    subst hempty hahead
    exact ⟨[], v₁, [], hv₁, rfl, hsettle.andThen (.look (.pure _ _))⟩
  · -- What follows changes neither the size of the unit in front nor its bytes.
    have hne : pending ++ ahead₁.flatten ≠ [] := fun h => hempty (List.append_eq_nil_iff.1 h).1
    have hend' : (unit.front pending).settled = true ∨ ahead₁.flatten = [] := hend.imp_right fun h => by rw [h, List.flatten_nil]
    obtain ⟨hcut, hdrop⟩ := TextUnit.cutFront_append hempty hend'
    have hpending : pending.isEmpty = false := by
      rw [List.isEmpty_eq_false_iff]
      exact hempty
    rw [if_neg hne, hcut]
    refine ⟨pending.drop (max (unit.front pending).size 1), v₁, ahead₁, hv₁, hdrop.symm, hsettle.andThen (.look ?_)⟩
    simp only [hpending]
    exact (Yields.change _ _).andThen (.pure _ _)

theorem yields_drain (unit : TextUnit) (left : Bytes) (cutter : Cutter) (units : List Bytes) (passed : Nat)
    (h : Serving v ahead) (hleft : cutter.pending ++ ahead.flatten = left) :
    ∃ last, Yields (fun fuel => loop (fun units => do
        match ← next (puller fuel) unit with
        | some bytes => return .inl (units ++ [bytes])
        | none => return .inr units) (fuel - passed) units) (cutter, v) [] (units ++ unit.cut left) last := by
  obtain ⟨pending, v', ahead', hv', hbytes, hnext⟩ := yields_next unit cutter h hleft
  fun_induction TextUnit.cut unit left generalizing cutter v ahead units passed pending v' ahead' with
  | case1 =>
    rw [if_pos rfl] at hnext
    rw [List.append_nil]
    exact ⟨_, .done (hnext.andThen (.pure _ _))⟩
  | case2 left hne ih =>
    rw [if_neg hne] at hnext
    obtain ⟨pending₁, v₁, ahead₁, hv₁, hbytes₁, hnext₁⟩ :=
      yields_next unit { cutter with pending } hv' hbytes
    obtain ⟨last, hrest⟩ := ih { cutter with pending } (units ++ [unit.cutFront left]) (passed + 1) hv' hbytes
      pending₁ v₁ ahead₁ hv₁ hbytes₁ hnext₁
    rw [List.append_assoc] at hrest
    exact ⟨last, .againQuietly (hnext.andThen (.pure _ _)) hrest⟩

/-- A byte string has units of its own, which stand at their places and make it up again; and those are what is
drained, in whatever chunks the byte string comes. -/
theorem yields_units (unit : TextUnit) (bytes : Bytes) :
    ∃ units : List Bytes, units.flatten = bytes ∧
      (∀ before this after, units = before ++ this :: after → unit.Stands this (this ++ after.flatten)) ∧
      ∀ parts : List Bytes, parts.flatten = bytes →
        ∃ last, Yields (fun fuel => drain (puller fuel) unit) ({}, .chunks parts 0) [] units last := by
  refine ⟨unit.cut bytes, unit.flatten_cut bytes, fun before this after h => TextUnit.stands_of_cut h, ?_⟩
  intro parts hparts
  exact yields_drain unit bytes {} [] 0 (.chunks parts 0) hparts

end PullScript.Cutter
