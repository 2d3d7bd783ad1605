import PullScript.Proofs.View.Tracks

namespace PullScript

open Act

variable {σ α β : Type} {feed : Feed} {n : Nat} {seen : Reach} {t : TextView}
variable {rest least : Bytes} {P : Reach → Nat → σ → Prop} {s : σ} {w : World} {b : β}

namespace TextView

inductive Runs (feed : Feed) (t : TextView) : Nat → Nat → Bytes → Prop
  | refl (i : Nat) : Runs feed t i i []
  | step {i j : Nat} {chunk bytes : Bytes} : (t.next i).Gives feed (some chunk) →
    Runs feed t (i + 1) j bytes → Runs feed t i j (chunk ++ bytes)

theorem next_gives_none_iff {i : Nat} : (t.next i).Gives feed none ↔ (t.ended i).Gives feed true := by
  unfold next
  rw [View.gives_bind_iff]
  constructor
  · rintro ⟨_ | _, hended, h⟩
    · simp at h
    · exact hended
  · exact fun hended => ⟨true, hended, .pure _⟩

theorem next_gives_some_iff {i : Nat} {chunk : Bytes} :
    (t.next i).Gives feed (some chunk) ↔ (t.ended i).Gives feed false ∧ (t.chunk i).Gives feed chunk := by
  unfold next
  rw [View.gives_bind_iff]
  constructor
  · rintro ⟨_ | _, hended, h⟩
    · exact ⟨hended, by simpa using h⟩
    · simp at h
  · exact fun ⟨hended, hchunk⟩ => ⟨false, hended, by simpa using hchunk⟩

namespace Runs

variable {i j k : Nat} {bytes more chunk : Bytes}

theorem le (h : t.Runs feed i j bytes) : i ≤ j := by
  induction h with
  | refl => exact Nat.le_refl _
  | step _ _ ih => omega

theorem single (h : (t.next i).Gives feed (some chunk)) : t.Runs feed i (i + 1) chunk := by
  simpa using Runs.step h (.refl _)

theorem trans (h : t.Runs feed i j bytes) (h' : t.Runs feed j k more) : t.Runs feed i k (bytes ++ more) := by
  induction h with
  | refl => exact h'
  | step hnext _ ih =>
    rw [List.append_assoc]
    exact .step hnext (ih h')

theorem split (h : t.Runs feed i k bytes) (h' : t.Runs feed i j more) (hjk : j ≤ k) :
    ∃ rest, bytes = more ++ rest ∧ t.Runs feed j k rest := by
  induction h' generalizing bytes with
  | refl => exact ⟨bytes, rfl, h⟩
  | step hnext hrest ih =>
    cases h with
    | refl =>
      have := hrest.le
      omega
    | step hnext' h =>
      obtain rfl := Option.some.inj (hnext.unique hnext')
      obtain ⟨rest, rfl, hrest⟩ := ih h hjk
      exact ⟨rest, (List.append_assoc ..).symm, hrest⟩

theorem unique (h : t.Runs feed i j bytes) (h' : t.Runs feed i j more) : bytes = more := by
  obtain ⟨rest, rfl, hrest⟩ := h.split h' (Nat.le_refl j)
  cases hrest with
  | refl => exact List.append_nil _
  | step _ hrest =>
    have := hrest.le
    omega

theorem of_ended (h : t.Runs feed i j bytes) (hended : (t.ended i).Gives feed true) : j = i ∧ bytes = [] := by
  cases h with
  | refl => exact ⟨rfl, rfl⟩
  | step hnext _ => cases hnext.unique (next_gives_none_iff.2 hended)

theorem le_of_ended (h : t.Runs feed i j bytes) (h' : t.Runs feed i k more) (hended : (t.ended k).Gives feed true) :
    j ≤ k := by
  by_cases hjk : j ≤ k
  · exact hjk
  · obtain ⟨rest, -, hrest⟩ := h.split h' (by omega)
    exact Nat.le_of_eq (hrest.of_ended hended).1

end Runs

def Stops (feed : Feed) (t : TextView) (enough : Bytes → Bool) (i : Nat) (soFar : Bytes) : Prop :=
  enough soFar = true ∨ (t.ended i).Gives feed true

def Reached (feed : Feed) (t : TextView) (enough : Bytes → Bool) (least : Bytes) (i : Nat)
    (soFar : Bytes) : Prop :=
  (enough least = true ∧ ∃ more, soFar = least ++ more) ∨
    (enough least = false ∧ soFar = least ∧ (t.ended i).Gives feed true)

section ReadRound

variable {enough : Bytes → Bool} {i : Nat} {soFar : Bytes}

theorem readRound_of_enough (h : enough soFar = true) : t.readRound enough (i, soFar) = pure (.inr soFar) := by
  simp [readRound, h]

theorem readRound_of_not_enough (h : enough soFar = false) :
    t.readRound enough (i, soFar) = t.next i >>= fun
      | none => pure (.inr soFar)
      | some chunk => pure (.inl (i + 1, soFar ++ chunk)) := by
  simp only [readRound, h]
  rfl

theorem readRound_gives_inr (h : t.Stops feed enough i soFar) :
    (t.readRound enough (i, soFar)).Gives feed (.inr soFar) := by
  cases henough : enough soFar with
  | true =>
    rw [readRound_of_enough henough]
    exact .pure _
  | false =>
    have hended : (t.ended i).Gives feed true := h.resolve_left (by simp [henough])
    rw [readRound_of_not_enough henough]
    exact (next_gives_none_iff.2 hended).bind (.pure _)

theorem readRound_gives_inl {chunk : Bytes} (henough : enough soFar = false) (h : (t.next i).Gives feed (some chunk)) :
    (t.readRound enough (i, soFar)).Gives feed (.inl (i + 1, soFar ++ chunk)) := by
  rw [readRound_of_not_enough henough]
  exact h.bind (.pure _)

theorem loop_readRound_gives (soFar : Bytes) {j : Nat} (h : t.Runs feed i j rest)
    (hstops : t.Stops feed enough j (soFar ++ rest)) :
    ∃ least, (View.loop (t.readRound enough) (i, soFar)).Gives feed least ∧
      t.Reached feed enough least j (soFar ++ rest) := by
  induction h generalizing soFar with
  | refl i =>
    rw [List.append_nil] at *
    refine ⟨soFar, View.gives_loop_iff.2 (.inr (readRound_gives_inr hstops)), ?_⟩
    cases henough : enough soFar with
    | true => exact .inl ⟨henough, [], (List.append_nil _).symm⟩
    | false => exact .inr ⟨henough, rfl, hstops.resolve_left (by simp [henough])⟩
  | @step i j chunk bytes hnext hrest ih =>
    cases henough : enough soFar with
    | true =>
      refine ⟨soFar, View.gives_loop_iff.2 (.inr (readRound_gives_inr (.inl henough))), ?_⟩
      exact .inl ⟨henough, chunk ++ bytes, rfl⟩
    | false =>
      rw [← List.append_assoc] at hstops ⊢
      obtain ⟨least, hleast, hreached⟩ := ih _ hstops
      exact ⟨least, View.gives_loop_iff.2 (.inl ⟨_, readRound_gives_inl henough hnext, hleast⟩), hreached⟩

theorem readUntil_gives (h : t.Runs feed 0 i soFar) (hstops : t.Stops feed enough i soFar) :
    ∃ least, (t.readUntil enough).Gives feed least ∧ t.Reached feed enough least i soFar := by
  have hread : t.Stops feed enough i ([] ++ soFar) := hstops
  exact loop_readRound_gives [] h hread

theorem Reached.of_gives (hleast : (t.readUntil enough).Gives feed least) (h : t.Runs feed 0 i soFar)
    (hstops : t.Stops feed enough i soFar) : t.Reached feed enough least i soFar := by
  obtain ⟨least', hleast', hreached⟩ := readUntil_gives h hstops
  rw [hleast.unique hleast']
  exact hreached

theorem loop_readRound_fails (soFar : Bytes)
    (hmono : ∀ soFar more, enough soFar = true → enough (soFar ++ more) = true) {j : Nat} {error : Error}
    (h : t.Runs feed i j rest) (henough : enough (soFar ++ rest) = false) (hfails : (t.next j).Fails feed error) :
    (View.loop (t.readRound enough) (i, soFar)).Fails feed error := by
  have hnot : enough soFar = false := by
    cases hsoFar : enough soFar with
    | false => rfl
    | true => rw [hmono _ _ hsoFar] at henough; cases henough
  induction h generalizing soFar with
  | refl i =>
    refine View.shows_loop_iff.2 (.inr ?_)
    rw [readRound_of_not_enough hnot]
    exact hfails.bind
  | @step i j chunk bytes hnext hrest ih =>
    rw [← List.append_assoc] at henough
    refine View.shows_loop_iff.2 (.inl ⟨_, readRound_gives_inl hnot hnext, ih _ henough hfails ?_⟩)
    cases hsoFar : enough (soFar ++ chunk) with
    | false => rfl
    | true => rw [hmono _ _ hsoFar] at henough; cases henough

theorem Reached.eq_of_stable {δ : Type} {f : Bytes → δ}
    (hf : ∀ soFar more, enough soFar = true → f (soFar ++ more) = f soFar) (h : t.Reached feed enough least i soFar) :
    f soFar = f least := by
  obtain ⟨henough, more, rfl⟩ | ⟨-, rfl, -⟩ := h
  · exact hf _ _ henough
  · rfl

end ReadRound

/-- Streaming from the place `i` on has given nothing at the end, or some chunks. -/
def Streamed (feed : Feed) (t : TextView) (P : Reach → Nat → σ → Prop) (i : Nat)
    (seen : Reach) (chunk : Option Bytes) (_ : Unit) (s : σ) (bytes : Bytes) : Prop :=
  match chunk with
  | none => bytes = [] ∧ P seen i s
  | some _ => ∃ j, i < j ∧ t.Runs feed i j bytes ∧ P seen j s

def Passed (feed : Feed) (t : TextView) (i : Nat) (chunk : Option Bytes) (j : Nat) (bytes : Bytes) : Prop :=
  match chunk with
  | none => bytes = [] ∧ j = i
  | some _ => i < j ∧ t.Runs feed i j bytes

theorem streamed_iff {i : Nat} {chunk : Option Bytes} {u : Unit} {bytes : Bytes} :
    t.Streamed feed P i seen chunk u s bytes ↔ ∃ j, P seen j s ∧ t.Passed feed i chunk j bytes := by
  cases chunk with
  | none =>
    constructor
    · exact fun ⟨hbytes, hs⟩ => ⟨i, hs, hbytes, rfl⟩
    · rintro ⟨_, hs, rfl, rfl⟩
      exact ⟨rfl, hs⟩
  | some chunk =>
    constructor
    · exact fun ⟨j, hij, hruns, hs⟩ => ⟨j, hs, hij, hruns⟩
    · exact fun ⟨j, hs, hij, hruns⟩ => ⟨j, hij, hruns, hs⟩

/-- A text that is streamed as it is seen, `P` saying which states are at a place and `O` which are
over. -/
structure Streams (feed : Feed) (n : Nat) (t : TextView) (P : Reach → Nat → σ → Prop)
    (O : Reach → σ → Prop) (ended : Nat → Act σ Bool) (stream : Nat → Act σ Unit) : Prop where
  endedOver : ∀ {seen i s}, P seen i s →
    Tells feed n seen s ended (t.ended i) fun seen' e s' => P seen' i s' ∧ (e = true → O seen' s')
  stream : ∀ {seen i s}, P seen i s →
    Tracks feed n seen s stream (t.next i) (t.Streamed feed P i)

theorem Streams.ended {O : Reach → σ → Prop} {ended : Nat → Act σ Bool} {stream : Nat → Act σ Unit}
    (h : t.Streams feed n P O ended stream) {i : Nat} (hs : P seen i s) :
    Tells feed n seen s ended (t.ended i) fun seen' _ s' => P seen' i s' :=
  (h.endedOver hs).imp fun _ _ _ _ _ hs' => hs'.1

/-- What a round of reading at the place `i` leaves, `Rep` saying which states have read some bytes
and are at a place, and `Fin` which states and answers end the reading there. What is read is also
streamed if `echo` says so. -/
def Rounded (feed : Feed) (t : TextView) (enough : Bytes → Bool) (echo : Bytes → Bytes)
    (Rep : Reach → Nat → Bytes → β → σ → Prop) (Fin : Reach → Nat → Bytes → α → σ → Prop)
    (i : Nat) (soFar : Bytes) (seen : Reach) (chunk : Option Bytes) (y : β ⊕ α) (s : σ)
    (bytes : Bytes) : Prop :=
  match chunk, y with
  | none, .inr a => bytes = [] ∧ Fin seen i soFar a s
  | some _, .inl b => ∃ j more, i < j ∧ t.Runs feed i j more ∧ bytes = echo more ∧ Rep seen j (soFar ++ more) b s
  | some _, .inr a => ∃ j more, i < j ∧ t.Runs feed i j more ∧ bytes = echo more ∧
    enough (soFar ++ more) = true ∧ Fin seen j (soFar ++ more) a s
  | none, .inl _ => False

def round (t : TextView) (enough : Bytes → Bool) (i : Nat) (soFar : Bytes) : View (Option Bytes) :=
  if enough soFar then pure none else t.next i

section Loops

variable {enough : Bytes → Bool} {echo : Bytes → Bytes} {body : Nat → β → Act σ (β ⊕ α)}
  {R : Reach → Nat → Bytes → β → σ → Prop} {F : Reach → Nat → Bytes → α → σ → Prop}

def Read (feed : Feed) (t : TextView) (enough : Bytes → Bool) (echo : Bytes → Bytes)
    (F : Reach → Nat → Bytes → α → σ → Prop) (i : Nat) (soFar : Bytes) (seen : Reach)
    (a : α) (s : σ) (bytes : Bytes) : Prop :=
  ∃ j rest, t.Runs feed i j rest ∧ bytes = echo rest ∧ t.Stops feed enough j (soFar ++ rest) ∧
    F seen j (soFar ++ rest) a s

theorem Read.later (happend : ∀ x y, echo (x ++ y) = echo x ++ echo y) {i j : Nat} {soFar more bytes : Bytes} {a : α}
    (h : t.Runs feed i j more) (hread : t.Read feed enough echo F j (soFar ++ more) seen a s bytes) :
    t.Read feed enough echo F i soFar seen a s (echo more ++ bytes) := by
  obtain ⟨k, rest, hrest, rfl, hstops, hfin⟩ := hread
  rw [List.append_assoc] at hstops hfin
  exact ⟨k, more ++ rest, h.trans hrest, (happend ..).symm, hstops, hfin⟩

theorem stops_of_round {i : Nat} {soFar : Bytes} (h : (t.round enough i soFar).Gives feed none) :
    t.Stops feed enough i soFar := by
  unfold round at h
  split at h
  · exact .inl ‹_›
  · exact .inr (next_gives_none_iff.1 h)

variable (hround : ∀ seen i soFar b s, R seen i soFar b s →
    Tracks feed n seen s (fun k => body k b) (t.round enough i soFar)
      (t.Rounded feed enough echo R F i soFar))
  (hnil : echo [] = []) (happend : ∀ x y, echo (x ++ y) = echo x ++ echo y)
  (hmono : ∀ soFar more, enough soFar = true → enough (soFar ++ more) = true)
include hround hnil happend

def ReadTo (feed : Feed) (t : TextView) (enough : Bytes → Bool) (echo : Bytes → Bytes)
    (F : Reach → Nat → Bytes → α → σ → Prop) (i : Nat) (soFar : Bytes) (seen : Reach) (w : World) :
    Act.Result σ α → Prop
  | .ok a (s', w') => ∃ seen' bytes, w.Moves feed seen seen' w' bytes ∧
    t.Read feed enough echo F i soFar seen' a s' bytes
  | .error (.failed error) _ => ∃ j rest, t.Runs feed i j rest ∧ enough (soFar ++ rest) = false ∧
    (t.next j).Fails feed error
  | .error .outOfFuel _ => True

omit hround hnil in
theorem ReadTo.later {seen₁ : Reach} {i j : Nat} {soFar more : Bytes} {w₁ : World} {r : Act.Result σ α}
    (hmoves : w.Moves feed seen seen₁ w₁ (echo more)) (hruns : t.Runs feed i j more)
    (h : t.ReadTo feed enough echo F j (soFar ++ more) seen₁ w₁ r) : t.ReadTo feed enough echo F i soFar seen w r := by
  cases r with
  | ok a s' =>
    obtain ⟨seen₂, bytes', hmoves', hread⟩ := h
    exact ⟨seen₂, _, hmoves.trans hmoves', hread.later happend hruns⟩
  | error stop s' =>
    cases stop with
    | outOfFuel => trivial
    | failed error =>
      obtain ⟨k, rest, hrest, henough, hfails⟩ := h
      rw [List.append_assoc] at henough
      exact ⟨k, more ++ rest, hruns.trans hrest, henough, hfails⟩

theorem loop_sound (left : Nat) {seen : Reach} {i : Nat} {soFar : Bytes} (h : R seen i soFar b s)
    (hw : w.Stocked feed seen) : t.ReadTo feed enough echo F i soFar seen w (Act.loop (body n) left b (s, w)) := by
  induction left generalizing seen i soFar b s w with
  | zero => trivial
  | succ left ih =>
    rw [Act.loop]
    obtain ⟨s', hout⟩ | ⟨x, hx, hfits⟩ := (hround seen i soFar b s h).follows hw
    · rw [bind_of_error hout]
      trivial
    generalize hr : body n b (s, w) = r at hfits
    cases hfits with
    | failed error s' =>
      rw [bind_of_error hr]
      refine ⟨i, [], .refl i, ?_⟩
      rw [round] at hx
      split at hx
      case isTrue => simp at hx
      case isFalse hnot => exact ⟨by simpa using hnot, hx⟩
    | @ok seen₁ x y s₁ w₁ bytes hmoves hxy =>
      rw [bind_of_ok hr]
      cases x with
      | none =>
        cases y with
        | inl _ => exact hxy.elim
        | inr _ =>
          obtain ⟨hbytes, hfin⟩ := hxy
          refine ⟨seen₁, bytes, hmoves, i, [], .refl i, by rw [hbytes, hnil], ?_, by simpa using hfin⟩
          simpa using stops_of_round hx
      | some chunk =>
        cases y with
        | inr _ =>
          obtain ⟨j, more, hij, hruns, hbytes, henough, hfin⟩ := hxy
          exact ⟨seen₁, bytes, hmoves, j, more, hruns, hbytes, .inl henough, hfin⟩
        | inl b' =>
          obtain ⟨j, more, hij, hruns, rfl, hrep⟩ := hxy
          exact .later happend hmoves hruns (ih hrep hmoves.stocked)

include hmono

theorem loop_complete (left passed : Nat) {seen : Reach} {i₀ i : Nat} {front : Bytes} {x : Except Error Bytes}
    (h : R seen i (front ++ rest) b s) (hrest : t.Runs feed i₀ i rest) (hw : w.Stocked feed seen)
    (hrun : View.rounds (t.readRound enough) (viewer feed n) left (i₀, front) = some x) :
    ∃ r, Comes (fun k => Act.loop (body k) (k - passed) b) (s, w) r ∧ Confirms feed seen w
      (fun seen' _ a s' bytes => t.Read feed enough echo F i (front ++ rest) seen' a s' bytes) x r := by
  induction left generalizing passed seen i₀ i front rest b s w with
  | zero => cases hrun
  | succ left ih =>
    -- One round that shows that there is enough or nothing more.
    have stop (least : Bytes) : (t.round enough i (front ++ rest)).run (viewer feed n) = some (.ok none) →
        ∃ r, Comes (fun k => Act.loop (body k) (k - passed) b) (s, w) r ∧ Confirms feed seen w
          (fun seen' _ a s' bytes => t.Read feed enough echo F i (front ++ rest) seen' a s' bytes) (.ok least) r := by
      intro hnone
      obtain ⟨seen₁, y, s₁, w₁, bytes, hcomes, hmoves, hxy⟩ := (hround _ _ _ _ _ h).complete hw hnone
      cases y with
      | inl _ => exact hxy.elim
      | inr a =>
        obtain ⟨hbytes, hfin⟩ := hxy
        refine ⟨_, hcomes.loop_done, .ok hmoves ⟨i, [], .refl i, by rw [hbytes, hnil], ?_, by simpa using hfin⟩⟩
        simpa using stops_of_round ⟨n, hnone⟩
    rw [View.rounds] at hrun
    cases henough : enough front with
    | true =>
      rw [readRound_of_enough henough] at hrun
      cases hrun
      refine stop front ?_
      rw [round, if_pos (hmono front rest henough)]
      rfl
    | false =>
      rw [readRound_of_not_enough henough] at hrun
      have hround_eq : t.round enough i₀ front = t.next i₀ := if_neg (by simp [henough])
      split at hrun
      case h_2 y hy =>
        cases hrun
        obtain ⟨chunk, hnext, hy⟩ := View.run_bind_eq_ok_iff.1 hy
        cases chunk with
        | some chunk => cases hy
        | none =>
          obtain ⟨rfl, rfl⟩ := hrest.of_ended (next_gives_none_iff.1 ⟨n, hnext⟩)
          refine stop y ?_
          rw [List.append_nil, hround_eq]
          exact hnext
      case h_3 error herror =>
        cases hrun
        obtain ⟨chunk, hnext, hy⟩ | ⟨_, ⟨⟩, herror⟩ := View.run_bind_eq_some_iff.1 herror
        · cases chunk <;> cases hy
        · cases hrest with
          | step hnext' _ => exact (hnext'.not_fails ⟨n, herror⟩).elim
          | refl =>
            rw [List.append_nil] at *
            obtain ⟨s', hcomes⟩ := (hround _ _ _ _ _ h).failing hw (by rw [hround_eq]; exact herror)
            exact ⟨_, hcomes.loop_error, .failed error s'⟩
      case h_4 => cases hrun
      case h_1 next hy =>
        obtain ⟨chunk, hnext, hy⟩ := View.run_bind_eq_ok_iff.1 hy
        cases chunk with
        | none => cases hy
        | some chunk =>
          cases hy
          cases hrest with
          | step hnext' hrest =>
            -- The loop has read this chunk before.
            obtain rfl := Option.some.inj (View.Gives.unique ⟨n, hnext⟩ hnext')
            rw [← List.append_assoc] at h ⊢
            exact ih passed h hrest hw hrun
          | refl =>
            rw [List.append_nil] at *
            have hmore : (t.round enough i₀ front).run (viewer feed n) = some (.ok (some chunk)) := by
              rw [hround_eq]
              exact hnext
            obtain ⟨seen₁, y, s₁, w₁, bytes, hcomes, hmoves, hxy⟩ :=
              (hround _ _ _ _ _ h).complete hw hmore
            cases y with
            | inr a =>
              -- Here the loop has more than the view, which has enough a few rounds later.
              obtain ⟨j, more, hij, hruns, hbytes, henough, hfin⟩ := hxy
              obtain ⟨rest, rfl, hrest⟩ := hruns.split (.single ⟨n, hnext⟩) hij
              obtain ⟨least, hleast, -⟩ := loop_readRound_gives (front ++ chunk) hrest
                (.inl (by rwa [List.append_assoc]))
              obtain rfl := (View.shows_of_rounds hrun).unique hleast
              exact ⟨_, hcomes.loop_done, .ok hmoves ⟨j, _, hruns, hbytes, .inl henough, hfin⟩⟩
            | inl b' =>
              obtain ⟨j, more, hij, hruns, rfl, hrep⟩ := hxy
              obtain ⟨rest, rfl, hrest⟩ := hruns.split (.single ⟨n, hnext⟩) hij
              rw [← List.append_assoc] at hrep
              obtain ⟨r, hcomes', hfits⟩ := ih (passed + 1) hrep hrest hmoves.stocked hrun
              refine ⟨r, hcomes.loop_again hcomes', .after hmoves (hfits.imp ?_)⟩
              intro seen₂ _ a s₂ bytes' _ _ hread
              rw [List.append_assoc] at hread
              exact hread.later happend hruns

variable (enough echo) in
theorem loop_tracks {i : Nat} {soFar : Bytes} (h : R seen i soFar b s) (hfront : t.Runs feed 0 i soFar) :
    Tracks feed n seen s (fun k => Act.loop (body k) k b) (t.readUntil enough)
      fun seen' least a s' bytes => ∃ j rest, t.Runs feed i j rest ∧ bytes = echo rest ∧
        t.Reached feed enough least j (soFar ++ rest) ∧ F seen' j (soFar ++ rest) a s' where
  follows {w} hw := by
    have hread := loop_sound hround hnil happend n h hw
    cases hr : Act.loop (body n) n b (s, w) with
    | ok a s' =>
      rw [hr] at hread
      obtain ⟨seen', bytes, hmoves, j, rest, hrest, hbytes, hstops, hfin⟩ := hread
      obtain ⟨least, hleast, hreached⟩ := readUntil_gives (hfront.trans hrest) hstops
      exact .inr ⟨_, hleast, .ok hmoves ⟨j, rest, hrest, hbytes, hreached, hfin⟩⟩
    | error stop s' =>
      cases stop with
      | outOfFuel => exact .inl ⟨s', rfl⟩
      | failed error =>
        rw [hr] at hread
        obtain ⟨j, rest, hrest, henough, hfails⟩ := hread
        have hread := loop_readRound_fails [] hmono (hfront.trans hrest) henough hfails
        exact .inr ⟨_, hread, .failed error s'⟩
  reaches hw hrun := by
    have hrep : R seen i ([] ++ soFar) b s := h
    obtain ⟨r, hcomes, hfits⟩ := loop_complete hround hnil happend hmono _ 0 hrep hfront hw hrun
    refine ⟨r, hcomes, hfits.imp ?_⟩
    rintro seen' least a s' bytes rfl - ⟨j, rest, hrest, hbytes, hstops, hfin⟩
    exact ⟨j, rest, hrest, hbytes, .of_gives ⟨n, hrun⟩ (hfront.trans hrest) hstops, hfin⟩

end Loops

end TextView

end PullScript
