import PullScript.Proofs.Eval.Input
import PullScript.Proofs.World.Sink

namespace PullScript

open Act

/-- The bytes that some reads hand out up to the end of the reader, those that fail being left out. -/
def Read.ahead : List Read → Bytes
  | [] => []
  | .failure _ :: reads => ahead reads
  | .chunk [] :: _ => []
  | .chunk bytes :: reads => bytes ++ ahead reads

def Read.fails : Read → Bool
  | failure _ => true
  | chunk _ => false

namespace Tap

def total (tap : Tap) : Bytes :=
  tap.read.toList ++ if tap.ended then [] else Read.ahead tap.reads

def failures (tap : Tap) : Nat :=
  tap.reads.countP Read.fails

/-- A copy at `offset` has `rest` ahead, of which some may have been read, and at most `tries` reads fail. -/
def Ahead (tap : Tap) (offset tries : Nat) (rest : Bytes) : Prop :=
  offset ≤ tap.upto ∧ tap.total.drop offset = rest ∧ tap.failures ≤ tries

variable {tap : Tap} {offset tries : Nat} {rest : Bytes}

theorem drop_total (tap : Tap) : tap.total.drop tap.upto = if tap.ended then [] else Read.ahead tap.reads := by
  rw [total, upto_eq, List.drop_left]

theorem ahead_upto {tap' : Tap} (hread : tap'.read = tap.read)
    (hahead : (if tap'.ended then [] else Read.ahead tap'.reads) = rest) (htries : tap'.failures ≤ tries) :
    tap'.Ahead tap.upto tries rest := by
  have hupto : tap'.upto = tap.upto := congrArg Array.size hread
  exact ⟨Nat.le_of_eq hupto.symm, by rw [← hupto, drop_total, hahead], htries⟩

/-- Asking the reader for a copy: a read fails and the copy has the same ahead, or the copy is at the end, or it has
bytes to stream. -/
theorem Ahead.fillFor (h : tap.Ahead offset tries rest) : ∃ tap' message, tap.fillFor offset = (tap', message) ∧
    match message with
    | some _ => tap'.upto = offset ∧ ∃ fewer < tries, tap'.Ahead offset fewer rest
    | none => tap'.Ahead offset tries rest ∧ tap'.atEnd offset = rest.isEmpty ∧ (rest ≠ [] → offset < tap'.upto) := by
  obtain ⟨hoffset, rfl, htries⟩ := h
  by_cases hseen : tap.upto ≤ offset
  · obtain rfl : tap.upto = offset := Nat.le_antisymm hseen hoffset
    rw [drop_total]
    have hover {tap' : Tap} (hread : tap'.read = tap.read) (hended : tap'.ended = true) (htries' : tap'.failures ≤ tries) :
        tap'.Ahead tap.upto tries [] ∧ tap'.atEnd tap.upto = ([] : Bytes).isEmpty ∧ (([] : Bytes) ≠ [] → tap.upto < tap'.upto) := by
      have hupto : tap'.upto = tap.upto := congrArg Array.size hread
      exact ⟨ahead_upto hread (by simp [hended]) htries', by simp [atEnd, hended, hupto], fun hne => absurd rfl hne⟩
    cases hended : tap.ended with
    | true => exact ⟨tap, none, by simp [Tap.fillFor, fill, hended], hover rfl hended htries⟩
    | false =>
      rw [failures] at htries
      cases hreads : tap.reads with
      | nil =>
        exact ⟨{ tap with pulls := tap.pulls + 1, ended := true }, none, by simp [Tap.fillFor, fill, hended, hreads],
          hover rfl rfl htries⟩
      | cons first reads =>
        rw [hreads, List.countP_cons] at htries
        cases first with
        | failure message =>
          refine ⟨{ tap with pulls := tap.pulls + 1, reads }, some message, by simp [Tap.fillFor, fill, hended, hreads], rfl,
            reads.countP Read.fails, ?_, ahead_upto rfl (by simp [hended, Read.ahead]) (Nat.le_refl _)⟩
          simp only [Read.fails, if_true] at htries
          omega
        | chunk bytes =>
          have hfewer : reads.countP Read.fails ≤ tries := Nat.le_of_add_right_le htries
          cases bytes with
          | nil =>
            exact ⟨{ tap with pulls := tap.pulls + 1, reads, ended := true }, none,
              by simp [Tap.fillFor, fill, hended, hreads], hover rfl rfl hfewer⟩
          | cons byte bytes =>
            let tap' : Tap := { tap with pulls := tap.pulls + 1, reads, read := tap.read ++ byte :: bytes }
            have hupto : tap.upto < tap'.upto := by
              rw [upto_eq, upto_eq]
              simp [tap']
            refine ⟨tap', none, by simp [Tap.fillFor, fill, hended, hreads, tap'], ⟨Nat.le_of_lt hupto, ?_, hfewer⟩, ?_,
              fun _ => hupto⟩
            · rw [upto_eq]
              simp [total, tap', hended, Read.ahead]
            · simp [atEnd, Nat.not_le.2 hupto, Read.ahead]
  · have hlong : offset < tap.total.length := by
      rw [total, List.length_append, ← upto_eq]
      omega
    refine ⟨tap, none, by simp [Tap.fillFor, hseen], ⟨hoffset, rfl, htries⟩, ?_, fun _ => by omega⟩
    have hsome : tap.total.drop offset ≠ [] := by simpa using hlong
    simp [atEnd, hseen, hsome]

end Tap

section

variable {σ τ α β : Type}

/-- Work on a state is work on a part of it, some values being held around meanwhile. -/
def Inner (make : σ → τ) (s : σ) (inner : Act σ α) (outer : Act τ α) : Prop :=
  ∀ w, ∃ around, outer (make s, w) =
    Result.on make (fun w₁ => { w₁ with around := w.around }) (inner (s, { w with around }))

theorem Inner.within [Holder τ] [Inhabited σ] (make : σ → τ) (s : σ) (inner : Act σ α) :
    Inner make s inner (Act.within s make inner) :=
  fun _ => ⟨_, within_run ..⟩

theorem Inner.onFirst [Holder σ] [Holder τ] [Inhabited σ] (s : σ) (t : τ) (act : Act σ α) :
    Inner (·, t) s act (Act.onFirst act) :=
  fun w => ⟨_, within_run s (·, t) act (s, t) w⟩

theorem Inner.onSecond [Holder σ] [Holder τ] [Inhabited σ] (s : σ) (t : τ) (act : Act σ α) :
    Inner (t, ·) s act (Act.onSecond act) :=
  fun w => ⟨_, within_run s (t, ·) act (t, s) w⟩

theorem Inner.trans {ρ : Type} {make : σ → τ} {make' : τ → ρ} {s : σ} {inner : Act σ α} {middle : Act τ α} {outer : Act ρ α}
    (h : Inner make s inner middle) (h' : Inner make' (make s) middle outer) : Inner (make' ∘ make) s inner outer := by
  intro w
  obtain ⟨around', hrun'⟩ := h' w
  obtain ⟨around, hrun⟩ := h { w with around := around' }
  refine ⟨around, ?_⟩
  change outer (make' (make s), w) = _
  rw [hrun', hrun]
  cases inner (s, { w with around }) <;> rfl

theorem Inner.arg {name : String} {ty : Ty} (front : List Value) (v : Value) (act : Act Value α) :
    Inner (fun v => (⟨name, ty, front ++ [v]⟩ : Bound)) v act (Bound.on front.length act) := by
  intro w
  have harg : Bound.arg front.length (⟨name, ty, front ++ [v]⟩, w) = .ok v (⟨name, ty, front ++ [v]⟩, w) := by
    simp [Bound.arg, bind_run]
  have hset (value : Value) : (front ++ [v]).set front.length value = front ++ [value] := by simp
  rw [Bound.on, bind_of_ok harg, bind_run, look_run]
  simp only [hset]
  exact ⟨_, within_run ..⟩

def Tried (Q : α → σ × World → Prop) (E : σ × World → Prop) : Act.Result σ α → Prop
  | .ok a s => Q a s
  | .error (.failed (.io _)) s => E s
  | .error _ _ => False

namespace Tried

variable {Q Q' : α → σ × World → Prop} {E E' : σ × World → Prop} {result : Act.Result σ α}

theorem imp (h : Tried Q E result) (hQ : ∀ a s, Q a s → Q' a s) (hE : ∀ s, E s → E' s) : Tried Q' E' result := by
  unfold Tried at h
  split at h
  · exact hQ _ _ h
  · exact hE _ h
  · exact h.elim

theorem cases (h : Tried Q E result) : (∃ a s, result = .ok a s ∧ Q a s) ∨
    ∃ message s, result = .error (.failed (.io message)) s ∧ E s := by
  unfold Tried at h
  split at h
  · exact .inl ⟨_, _, rfl, h⟩
  · exact .inr ⟨_, _, rfl, h⟩
  · exact h.elim

theorem bind {act : Act σ α} {next : α → Act σ β} {R : β → σ × World → Prop} {s : σ × World} (h : Tried Q E (act s))
    (hnext : ∀ a s', Q a s' → Tried R E (next a s')) : Tried R E ((act >>= next) s) := by
  obtain ⟨a, s', hrun, hs'⟩ | ⟨message, s', hrun, hs'⟩ := h.cases <;> rw [bind_run, hrun]
  · exact hnext a s' hs'
  · exact hs'

theorem on {Q : α → τ × World → Prop} {E : τ × World → Prop} {rebuild : σ → τ} {restore : World → World}
    (h : Tried (fun a s => Q a (rebuild s.1, restore s.2)) (fun s => E (rebuild s.1, restore s.2)) result) :
    Tried Q E (Result.on rebuild restore result) := by
  unfold Tried at h
  split at h
  · exact h
  · exact h
  · exact h.elim

theorem loop {ρ : Type} {body : β → Act σ (β ⊕ α)} {I : List ρ → β → σ × World → Prop}
    (hbody : ∀ {rest b s}, I rest b s → Tried
      (fun r s' => r.elim (fun b' => ∃ rest', rest'.length < rest.length ∧ I rest' b' s') fun a => Q a s') E (body b s))
    {rest : List ρ} {fuel : Nat} {b : β} {s : σ × World} (hs : I rest b s) (hfuel : rest.length < fuel) :
    Tried Q E (Act.loop body fuel b s) := by
  induction fuel generalizing rest b s with
  | zero => exact absurd hfuel (Nat.not_lt_zero _)
  | succ fuel ih =>
    refine (hbody hs).bind fun r s' hs' => ?_
    cases r with
    | inl b' =>
      obtain ⟨rest', hless, hrest'⟩ := hs'
      exact ih hrest' (by omega)
    | inr a => exact hs'

end Tried

end

/-- A copy at `offset` of an input has `rest` ahead, and at most `tries` reads fail. -/
def World.Ahead (w : World) (tap offset tries : Nat) (rest : Bytes) : Prop :=
  tap < w.taps.size ∧ (w.tapAt tap).Ahead offset tries rest

namespace World.Ahead

variable {w : World} {tap offset tries : Nat} {rest : Bytes}

theorem withTap (h : w.Ahead tap offset tries rest) {t : Tap} {offset' tries' : Nat} {rest' : Bytes}
    (ht : t.Ahead offset' tries' rest') : (w.withTap tap t).Ahead tap offset' tries' rest' :=
  ⟨by simpa [World.withTap] using h.1, (World.tapAt_withTap h.1 t).symm ▸ ht⟩

theorem textEnded (h : w.Ahead tap offset tries rest) (n : Nat) (primary : Bool) :
    Tried
      (fun e s => s.1 = .input tap offset primary ∧ s.2.Ahead tap offset tries rest ∧ e = rest.isEmpty ∧
        (rest ≠ [] → offset < (s.2.tapAt tap).upto))
      (fun s => s.1 = .input tap offset primary ∧ (s.2.tapAt tap).upto = offset ∧
        ∃ fewer < tries, s.2.Ahead tap offset fewer rest)
      ((puller (n + 1)).textEnded (.input tap offset primary, w)) := by
  have hrun : (puller (n + 1)).textEnded (.input tap offset primary, w) =
      Result.on (Value.input tap · primary) id (answerInput.ended tap (offset, w)) := pull_input_run .ended
  obtain ⟨tap', message, hfill, hmet⟩ := h.2.fillFor
  rw [hrun, answerInput_ended_run, hfill]
  cases message with
  | some message =>
    obtain ⟨hupto, fewer, hfewer, hahead⟩ := hmet
    exact ⟨rfl, (World.tapAt_withTap h.1 tap').symm ▸ hupto, fewer, hfewer, h.withTap hahead⟩
  | none =>
    obtain ⟨hahead, hend, hsome⟩ := hmet
    exact ⟨rfl, h.withTap hahead, hend, fun hne => (World.tapAt_withTap h.1 tap').symm ▸ hsome hne⟩

theorem streams (h : w.Ahead tap offset tries rest) (hoffset : offset < (w.tapAt tap).upto) (n : Nat) (primary : Bool)
    (buffer : Bytes) : ∃ chunk rest' offset' w', chunk ≠ [] ∧ rest = chunk ++ rest' ∧ w'.Ahead tap offset' tries rest' ∧
      streamMore (puller (n + 1)) ((buffer, .input tap offset primary), w) =
        .ok () ((buffer ++ chunk, .input tap offset' primary), w') := by
  obtain ⟨hbounds, hseen, rfl, htries⟩ := h
  have hfill : (World.tapAt { w with out := {} } tap).fillFor offset = (w.tapAt tap, none) := by
    change (w.tapAt tap).fillFor offset = _
    simp [Tap.fillFor, Nat.not_le.2 hoffset]
  obtain ⟨out, hwrite⟩ : ∃ out, Sink.write {} ((w.tapAt tap).after offset) = (out, true) :=
    ⟨_, Sink.write_of_limit_none rfl _⟩
  have hbytes : out.bytes = (w.tapAt tap).after offset := Sink.bytes_of_write hwrite
  have hstream : (puller (n + 1)).stream (.input tap offset primary, { w with out := {} }) =
      Result.on (Value.input tap · primary) id (answerInput.stream tap (offset, { w with out := {} })) := pull_input_run .stream
  rw [answerInput_stream_run, hfill] at hstream
  dsimp only at hstream
  rw [hwrite] at hstream
  have hafter := Tap.after_eq (w.tapAt tap) offset
  refine ⟨(w.tapAt tap).after offset, (w.tapAt tap).total.drop (w.tapAt tap).upto, (w.tapAt tap).upto,
    w.withTap tap ((w.tapAt tap).trim (w.oldestAround tap (w.tapAt tap).upto)), ?_, ?_, ?_, ?_⟩
  · rw [hafter, ne_eq, List.drop_eq_nil_iff, ← Tap.upto_eq]
    omega
  · rw [Tap.drop_total, hafter, Tap.total, List.drop_append_of_le_length (Tap.upto_eq _ ▸ hseen)]
  · exact withTap (show w.Ahead tap offset tries _ from ⟨hbounds, hseen, rfl, htries⟩) ⟨Nat.le_refl _, rfl, htries⟩
  · rw [streamMore, gather_run, hstream]
    dsimp only [Result.on, Result.gather, id]
    rw [hbytes]
    rfl

end World.Ahead

end PullScript
