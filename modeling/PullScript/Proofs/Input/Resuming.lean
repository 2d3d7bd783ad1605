import PullScript.Proofs.Input.Trying
import PullScript.Proofs.Text.Pieces
import PullScript.Proofs.Text.Units

namespace PullScript

open Act

variable {σ τ : Type}

/-- A list goes on after a read that failed as it would have without it. `P known tries items` says of its states that
`items` are to come, that at most `tries` reads fail, and whether the item in front is known. -/
structure Resumes (answer : (ask : ListAsk) → Act σ ask.Reply)
    (P : Bool → Nat → (Nat → Option Value) → σ × World → Prop) : Prop where
  around {known : Bool} {tries : Nat} {items : Nat → Option Value} {s : σ} {w : World} (around : List (List Value)) :
    P known tries items (s, w) → P known tries items (s, { w with around })
  ended {known : Bool} {tries : Nat} {items : Nat → Option Value} {s : σ × World} : P known tries items s →
    Tried (fun e s' => e = (items 0).isNone ∧ P true tries items s') (fun s' => ∃ fewer < tries, P false fewer items s')
      (answer .ended s)
  current {tries : Nat} {items : Nat → Option Value} {s : σ × World} {x : Value} : P true tries items s →
    items 0 = some x → answer .current s = .ok x s
  advance {tries : Nat} {items : Nat → Option Value} {s : σ × World} {x : Value} : P true tries items s →
    items 0 = some x → ∃ s', answer .advance s = .ok () s' ∧ P false tries (fun k => items (k + 1)) s'
  ending {tries : Nat} {items : Nat → Option Value} {s : σ × World} : P true tries items s → items 0 = none →
    P false tries (fun k => items (k + 1)) s

namespace Resumes

variable {answer : (ask : ListAsk) → Act σ ask.Reply} {P : Bool → Nat → (Nat → Option Value) → σ × World → Prop}

theorem inside {answer : σ → (ask : ListAsk) → Act σ ask.Reply} (h : ∀ s, Resumes (answer s) P)
    {answer' : (ask : ListAsk) → Act τ ask.Reply} (rebuild : σ → τ)
    (heq : ∀ ask s, Inner rebuild s (answer s ask) (answer' ask)) :
    Resumes answer' fun known tries items t => ∃ s, t.1 = rebuild s ∧ P known tries items (s, t.2) where
  around := by
    rintro known tries items t w around ⟨s, rfl, hs⟩
    exact ⟨s, rfl, (h s).around around hs⟩
  ended := by
    rintro known tries items ⟨t, w⟩ ⟨s, rfl, hs⟩
    obtain ⟨around, hrun⟩ := heq .ended s w
    rw [hrun]
    refine Tried.on (((h s).ended ((h s).around around hs)).imp (fun e s' hs' => ?_) fun s' hs' => ?_)
    · exact ⟨hs'.1, s'.1, rfl, (h s).around w.around hs'.2⟩
    · obtain ⟨fewer, hfewer, hs'⟩ := hs'
      exact ⟨fewer, hfewer, s'.1, rfl, (h s).around w.around hs'⟩
  current := by
    rintro tries items ⟨t, w⟩ x ⟨s, rfl, hs⟩ hx
    obtain ⟨around, hrun⟩ := heq .current s w
    rw [hrun, (h s).current ((h s).around around hs) hx]
    rfl
  advance := by
    rintro tries items ⟨t, w⟩ x ⟨s, rfl, hs⟩ hx
    obtain ⟨around, hrun⟩ := heq .advance s w
    obtain ⟨⟨s', w'⟩, hadvance, hs'⟩ := (h s).advance ((h s).around around hs) hx
    rw [hrun, hadvance]
    exact ⟨_, rfl, s', rfl, (h s).around w.around hs'⟩
  ending := by
    rintro tries items ⟨t, w⟩ ⟨s, rfl, hs⟩ hnone
    exact ⟨s, rfl, (h s).ending hs hnone⟩

variable {n : Nat} {P : Bool → Nat → (Nat → Option Value) → Value × World → Prop}
  {known : Bool} {tries : Nat} {items : Nat → Option Value} {s : Value × World}

/-- A list that is asked for its next item gives it and has the others to come, or a read fails and it has the same items
to come. -/
theorem next (h : Resumes (fun ask => (puller n).pull (.list ask)) P) (hs : P known tries items s) :
    Tried (fun item s' => item = items 0 ∧ P false tries (fun k => items (k + 1)) s')
      (fun s' => ∃ fewer < tries, P false fewer items s') ((puller n).next s) := by
  refine (h.ended hs).bind fun e s₁ hs₁ => ?_
  obtain ⟨rfl, hknown⟩ := hs₁
  cases hitem : items 0 with
  | none => exact ⟨rfl, h.ending hknown hitem⟩
  | some x =>
    obtain ⟨v, w⟩ := s₁
    obtain ⟨⟨v', w'⟩, hadvance, hrest⟩ := h.advance (h.around ([x] :: w.around) hknown) hitem
    have hholding : holding [x] (puller n).advance (v, w) = .ok () (v', { w' with around := w.around }) := by
      rw [holding_run]
      change Result.on id _ ((puller n).pull (.list .advance) _) = _
      rw [hadvance]
      rfl
    have hcurrent : (puller n).current (v, w) = .ok x (v, w) := h.current hknown hitem
    have hrun : (do
        let item ← (puller n).current
        holding [item] (puller n).advance
        return some item : Act Value (Option Value)) (v, w) = .ok (some x) (v', { w' with around := w.around }) := by
      rw [bind_of_ok hcurrent, bind_of_ok hholding, pure_run]
    exact (congrArg (Tried _ _) hrun).mpr ⟨rfl, h.around w.around hrest⟩

end Resumes

def itemsOf {α : Type} (item : α → Value) (parts : List α) (k : Nat) : Option Value :=
  parts[k]?.map item

namespace World.Ahead

variable {n tap offset tries : Nat} {primary : Bool} {rest buffer : Bytes} {w : World}
  (h : w.Ahead tap offset tries rest) (hfuel : rest.length < n)
include h hfuel

/-- A round of a loop that stops at the end of an input and else puts more of it into a buffer. -/
theorem round [Holder σ] {ended : Act σ Bool} {stop go : Act σ (Unit ⊕ Unit)} {Q : Unit ⊕ Unit → σ × World → Prop}
    {E : σ × World → Prop} (make : Bytes → Value → σ)
    (hended : Inner (make buffer) (.input tap offset primary) (puller n).textEnded ended)
    (hgo : ∀ w, go (make buffer (.input tap offset primary), w) = (do
      within (buffer, Value.input tap offset primary) (fun s => make s.1 s.2) (streamMore (puller n))
      return Sum.inl ()) (make buffer (.input tap offset primary), w))
    (hfails : ∀ fewer < tries, ∀ w' : World, w'.Ahead tap offset fewer rest → E (make buffer (.input tap offset primary), w'))
    (hstops : rest = [] → ∀ w' : World, w'.Ahead tap offset tries rest →
      Tried Q E (stop (make buffer (.input tap offset primary), w')))
    (hgoes : ∀ chunk rest' offset' (w' : World), rest = chunk ++ rest' → rest'.length < rest.length →
      w'.Ahead tap offset' tries rest' → Q (.inl ()) (make (buffer ++ chunk) (.input tap offset' primary), w')) :
    Tried Q E ((do if ← ended then stop else go) (make buffer (.input tap offset primary), w)) := by
  obtain _ | n := n
  · omega
  obtain ⟨around, hrun⟩ := hended w
  refine Tried.bind (Q := fun e s => ∃ w' : World, s = (make buffer (.input tap offset primary), w') ∧
    w'.Ahead tap offset tries rest ∧ e = rest.isEmpty ∧ (rest ≠ [] → offset < (w'.tapAt tap).upto)) ?_ ?_
  · rw [hrun]
    refine Tried.on ((textEnded (w := { w with around }) h n primary).imp ?_ ?_)
    · rintro e ⟨v, w'⟩ ⟨rfl, hahead, he, hupto⟩
      exact ⟨{ w' with around := w.around }, rfl, hahead, he, hupto⟩
    · rintro ⟨v, w'⟩ ⟨rfl, -, fewer, hfewer, hahead⟩
      exact hfails fewer hfewer { w' with around := w.around } hahead
  · rintro _ _ ⟨w', rfl, hahead, rfl, hupto⟩
    by_cases hrest : rest = []
    · rw [if_pos (by simpa using hrest)]
      exact hstops hrest w' hahead
    · obtain ⟨chunk, rest', offset', w₁, hchunk, rfl, hahead', hstreamed⟩ :=
        streams (w := { w' with around := _ :: w'.around }) hahead (hupto hrest) n primary buffer
      have hpos := List.length_pos_iff.2 hchunk
      rw [if_neg (by simpa using hrest), hgo, bind_run, within_run, hstreamed]
      exact hgoes chunk rest' offset' { w₁ with around := w'.around } rfl (by rw [List.length_append]; omega) hahead'

end World.Ahead

namespace ByteList

def item (byte : UInt8) : Value :=
  .number (Float.ofNat byte.toNat)

inductive Left (n : Nat) (name : String) (ty : Ty) : Bool → Nat → (Nat → Option Value) → (Bound × Bytes) × World → Prop
  | mk {known primary : Bool} {tries tap offset : Nat} {ahead rest : Bytes} {w : World} : w.Ahead tap offset tries rest →
    rest.length < n → (known = true → ahead = [] → rest = []) →
    Left n name ty known tries (itemsOf item (ahead ++ rest)) ((⟨name, ty, [.input tap offset primary]⟩, ahead), w)

variable {n : Nat} {name : String} {ty : Ty} {known : Bool} {tries : Nat} {items : Nat → Option Value}
  {s : (Bound × Bytes) × World}

theorem fill_tried (h : Left n name ty known tries items s) :
    Tried (fun _ => Left n name ty true tries items) (fun s' => ∃ fewer < tries, Left n name ty false fewer items s')
      (fill (puller n) s) := by
  cases h with | @mk primary _ tap offset ahead rest w hahead hfuel =>
  -- What is ahead and the rest of the input stay the same together.
  refine Tried.loop (I := fun rest' _ s => ∃ ahead' offset' w', s = ((⟨name, ty, [.input tap offset' primary]⟩, ahead'), w') ∧
    w'.Ahead tap offset' tries rest' ∧ rest'.length < n ∧ ahead ++ rest = ahead' ++ rest') ?_
    ⟨ahead, offset, w, rfl, hahead, hfuel, rfl⟩ hfuel
  rintro rest' - - ⟨ahead', offset', w', rfl, hahead', hfuel', hsame⟩
  rw [hsame]
  cases ahead' with
  | cons byte ahead' => exact .mk hahead' hfuel' fun _ hnil => by cases hnil
  | nil =>
    refine hahead'.round hfuel' (fun ahead v => ((⟨name, ty, [v]⟩ : Bound), ahead))
      ((Inner.arg [] (.input tap offset' primary) (puller n).textEnded).trans (.onFirst _ _ _)) (fun _ => rfl) ?_ ?_ ?_
    · exact fun fewer hfewer w₁ hahead₁ => ⟨fewer, hfewer, .mk hahead₁ hfuel' fun h => by cases h⟩
    · rintro rfl w₁ hahead₁
      exact .mk hahead₁ hfuel' fun _ _ => rfl
    · rintro chunk rest₂ offset₂ w₂ rfl hless hahead₂
      exact ⟨rest₂, hless, chunk, offset₂, w₂, rfl, hahead₂, by omega, rfl⟩

theorem Left.exists_cons {x : Value} (h : Left n name ty true tries items s) (hx : items 0 = some x) :
    ∃ b byte ahead w, s = ((b, byte :: ahead), w) ∧ x = item byte ∧ 0 < n ∧
      Left n name ty false tries (fun k => items (k + 1)) ((b, ahead), w) := by
  cases h with | @mk primary _ tap offset ahead rest w hahead hfuel hknown =>
  cases ahead with
  | nil =>
    obtain rfl := hknown rfl rfl
    cases hx
  | cons byte ahead => exact ⟨_, byte, ahead, w, rfl, (Option.some.inj hx).symm, by omega, .mk hahead hfuel fun h => by cases h⟩

theorem resumes (n : Nat) (name : String) (ty : Ty) : Resumes (answer (puller n)) (Left n name ty) where
  around around h := by
    cases h with | mk hahead hfuel hknown => exact .mk hahead hfuel hknown
  ended h := (fill_tried h).bind fun _ s' hs' => by
    cases hs' with | @mk primary _ tap offset ahead rest w hahead hfuel hknown =>
    refine ⟨?_, .mk hahead hfuel hknown⟩
    cases ahead with
    | nil =>
      obtain rfl := hknown rfl rfl
      rfl
    | cons byte ahead => rfl
  current h hx := by
    obtain ⟨b, byte, ahead, w, rfl, rfl, hfuel, -⟩ := h.exists_cons hx
    obtain _ | n := n
    · omega
    rfl
  advance h hx := by
    obtain ⟨b, byte, ahead, w, rfl, rfl, hfuel, hleft⟩ := h.exists_cons hx
    obtain _ | n := n
    · omega
    exact ⟨_, rfl, hleft⟩
  ending h hnone := by
    cases h with | @mk primary _ tap offset ahead rest w hahead hfuel hknown =>
    obtain ⟨rfl, rfl⟩ : ahead = [] ∧ rest = [] := by simpa [itemsOf] using hnone
    change Left n name ty false _ (itemsOf item ([] ++ [])) _
    exact .mk hahead hfuel fun _ _ => rfl

end ByteList

namespace Cutter

/-- The unit in front, if it is known, and those that are pending or that an input has ahead are to come. -/
inductive Left (n : Nat) (unit : TextUnit) : Bool → Nat → (Nat → Option Value) → (Cutter × Value) × World → Prop
  | uncut {primary : Bool} {tries tap offset : Nat} {pending rest : Bytes} {w : World} : w.Ahead tap offset tries rest →
    rest.length < n →
    Left n unit false tries (itemsOf (item unit) (unit.cut (pending ++ rest))) ((⟨pending, none, false⟩, .input tap offset primary), w)
  | cut {known primary : Bool} {tries tap offset : Nat} {pending rest front : Bytes} {w : World} :
    w.Ahead tap offset tries rest → rest.length < n →
    Left n unit known tries (itemsOf (item unit) (front :: unit.cut (pending ++ rest)))
      ((⟨pending, some front, false⟩, .input tap offset primary), w)
  | finished {known : Bool} {tries : Nat} {pending : Bytes} {v : Value} {w : World} :
    Left n unit known tries (itemsOf (item unit) []) ((⟨pending, none, true⟩, v), w)

def Holds (n tap : Nat) (primary : Bool) (cutter : Cutter) (left : Bytes) (tries : Nat) (pending rest : Bytes)
    (s : (Cutter × Value) × World) : Prop :=
  ∃ offset, ∃ w : World, s = (({ cutter with pending }, .input tap offset primary), w) ∧ w.Ahead tap offset tries rest ∧
    rest.length < n ∧ left = pending ++ rest

variable {n : Nat} {unit : TextUnit} {tries tap : Nat} {primary : Bool} {cutter : Cutter} {left pending rest : Bytes}
  {s : (Cutter × Value) × World}

theorem settle_tried (unit : TextUnit) (h : Holds n tap primary cutter left tries pending rest s) :
    Tried
      (fun _ s' => ∃ pending' rest', Holds n tap primary cutter left tries pending' rest' s' ∧
        ((unit.front pending').settled = true ∨ rest' = []))
      (fun s' => ∃ fewer < tries, ∃ pending' rest', Holds n tap primary cutter left fewer pending' rest' s')
      (settle (puller n) unit s) := by
  have hfuel := h.choose_spec.choose_spec.2.2.1
  refine Tried.loop (I := fun rest' _ s => ∃ pending', Holds n tap primary cutter left tries pending' rest' s) ?_
    ⟨pending, h⟩ hfuel
  rintro rest' - - ⟨pending, offset', w', rfl, hahead', hfuel', hsame⟩
  rw [bind_run, look_run]
  dsimp only
  by_cases hsettled : (!pending.isEmpty && (unit.front pending).settled) = true
  · rw [if_pos hsettled]
    exact ⟨pending, rest', ⟨offset', w', rfl, hahead', hfuel', hsame⟩, .inl (Bool.and_eq_true_iff.1 hsettled).2⟩
  · rw [if_neg hsettled]
    refine hahead'.round hfuel' (fun pending v => ({ cutter with pending }, v))
      (.onSecond (.input tap offset' primary : Value) _ _) ?_ ?_ ?_ ?_
    · exact fun _ => rfl
    · exact fun fewer hfewer w₁ hahead₁ => ⟨fewer, hfewer, pending, rest', offset', w₁, rfl, hahead₁, hfuel', hsame⟩
    · rintro rfl w₁ hahead₁
      exact ⟨pending, [], ⟨offset', w₁, rfl, hahead₁, hfuel', hsame⟩, .inr rfl⟩
    · rintro chunk rest₂ offset₂ w₂ rfl hless hahead₂
      refine ⟨rest₂, hless, pending ++ chunk, offset₂, w₂, rfl, hahead₂, by omega, ?_⟩
      rw [hsame, List.append_assoc]

theorem next_tried (unit : TextUnit) (h : Holds n tap primary cutter left tries pending rest s) :
    Tried
      (fun front s' => ∃ left' pending' rest', Holds n tap primary cutter left' tries pending' rest' s' ∧
        unit.cut left = front.elim [] (· :: unit.cut left'))
      (fun s' => ∃ fewer < tries, ∃ pending' rest', Holds n tap primary cutter left fewer pending' rest' s')
      (next (puller n) unit s) := by
  refine (settle_tried unit h).bind ?_
  rintro _ _ ⟨pending, rest, ⟨offset, w, rfl, hahead, hfuel, rfl⟩, hend⟩
  by_cases hempty : pending = []
  · -- Nothing is pending only when nothing is left.
    obtain rfl : rest = [] := by
      refine hend.resolve_left fun hsettled => ?_
      rw [hempty] at hsettled
      cases hsettled
    subst hempty
    exact ⟨[], [], [], ⟨offset, w, rfl, hahead, hfuel, rfl⟩, by simp [TextUnit.cut]⟩
  · obtain ⟨hcut, hdrop⟩ := TextUnit.cutFront_append hempty hend
    have hne : pending ++ rest ≠ [] := fun h => hempty (List.append_eq_nil_iff.1 h).1
    rw [bind_run, look_run]
    dsimp only
    rw [if_neg (by simpa using hempty)]
    refine ⟨_, pending.drop (max (unit.front pending).size 1), rest, ⟨offset, w, rfl, hahead, hfuel, rfl⟩, ?_⟩
    rw [TextUnit.cut, if_neg hne, hcut, hdrop]
    rfl

theorem fetch_tried {known : Bool} {items : Nat → Option Value} (h : Left n unit known tries items s) :
    Tried (fun _ => Left n unit true tries items) (fun s' => ∃ fewer < tries, Left n unit false fewer items s')
      (fetch (puller n) unit s) := by
  cases h with
  | cut hahead hfuel => exact .cut hahead hfuel
  | finished => exact .finished
  | @uncut primary _ tap offset pending rest w hahead hfuel =>
    have hnext := next_tried unit
      (show Holds n tap primary ⟨pending, none, false⟩ _ tries pending rest _ from ⟨offset, w, rfl, hahead, hfuel, rfl⟩)
    change Tried _ _ ((next (puller n) unit >>= fun current => change _) _)
    refine (hnext.imp (fun _ _ => id) ?_).bind ?_
    · rintro _ ⟨fewer, hfewer, pending', rest', offset', w', rfl, hahead', hfuel', hleft⟩
      rw [hleft]
      exact ⟨fewer, hfewer, .uncut hahead' hfuel'⟩
    · rintro front _ ⟨_, pending', rest', ⟨offset', w', rfl, hahead', hfuel', rfl⟩, hcut⟩
      rw [hcut]
      cases front with
      | none => exact .finished
      | some front => exact .cut hahead' hfuel'

theorem resumes (n : Nat) (ty : Ty) (unit : TextUnit) : Resumes (answer (puller n) ty unit) (Left n unit) where
  around around h := by
    cases h with
    | uncut hahead hfuel => exact .uncut hahead hfuel
    | cut hahead hfuel => exact .cut hahead hfuel
    | finished => exact .finished
  ended h := (fetch_tried h).bind fun _ s' hs' => by
    cases hs' with
    | cut hahead hfuel => exact ⟨rfl, .cut hahead hfuel⟩
    | finished => exact ⟨rfl, .finished⟩
  current h hx := by
    cases h with
    | cut hahead hfuel =>
      cases hx
      rfl
    | finished => cases hx
  advance h hx := by
    cases h with
    | cut hahead hfuel => exact ⟨_, rfl, .uncut hahead hfuel⟩
    | finished => cases hx
  ending h hnone := by
    cases h with
    | cut hahead hfuel => cases hnone
    | finished =>
      change Left n unit false _ (itemsOf (item unit) []) _
      exact .finished

end Cutter

theorem readAll_literal (n : Nat) (bytes : Bytes) (w : World) :
    readAll (puller (n + 1)) (.text bytes false, w) = .ok bytes (.text bytes true, w) := by
  obtain ⟨out, hwrite⟩ : ∃ out, Sink.write {} bytes = (out, true) := ⟨_, Sink.write_of_limit_none rfl _⟩
  have hdrain : (puller (n + 1)).drain (.text bytes false, { w with out := {} }) = .ok () (.text bytes true, { w with out }) := by
    change Result.on (Value.text bytes) id (answerLiteral bytes .drain (false, { w with out := {} })) = _
    rw [answerLiteral, bind_run, write_run, hwrite]
    rfl
  rw [readAll, gathered_run, hdrain]
  exact congrArg (EStateM.Result.ok · _) (Sink.bytes_of_write hwrite)

namespace Splitter

def Knows (separator : Bytes) (read : Bool) (known : Option Bytes) : Prop :=
  known = some separator ∨ known = none ∧ read = false

/-- The piece in front, if it is known, and those that are pending or that an input has ahead are to come. Without a
separator there is one empty piece after the other. -/
inductive Left (n : Nat) (name : String) (ty : Ty) (separator : Bytes) :
    Bool → Nat → (Nat → Option Value) → (Bound × Splitter) × World → Prop
  | uncut {read primary : Bool} {tries tap offset : Nat} {known : Option Bytes} {pending rest : Bytes} {pieces : List Bytes}
    {w : World} : separator ≠ [] → Knows separator read known → w.Ahead tap offset tries rest → rest.length < n →
    Bytes.Cuts separator (pending ++ rest) pieces → Left n name ty separator false tries (itemsOf .textOf pieces)
      ((⟨name, ty, [.text separator read, .input tap offset primary]⟩, ⟨known, pending, none, false⟩), w)
  | cut {fetched read primary : Bool} {tries tap offset : Nat} {known : Option Bytes} {pending rest piece : Bytes}
    {pieces : List Bytes} {w : World} : separator ≠ [] → Knows separator read known → w.Ahead tap offset tries rest →
    rest.length < n → Bytes.Cuts separator (pending ++ rest) pieces →
    Left n name ty separator fetched tries (itemsOf .textOf (piece :: pieces))
      ((⟨name, ty, [.text separator read, .input tap offset primary]⟩, ⟨known, pending, some piece, false⟩), w)
  | last {fetched : Bool} {tries : Nat} {b : Bound} {known : Option Bytes} {pending piece : Bytes} {w : World} :
    Left n name ty separator fetched tries (itemsOf .textOf [piece]) ((b, ⟨known, pending, some piece, true⟩), w)
  | finished {fetched : Bool} {tries : Nat} {b : Bound} {known : Option Bytes} {pending : Bytes} {w : World} :
    Left n name ty separator fetched tries (itemsOf .textOf []) ((b, ⟨known, pending, none, true⟩), w)
  | endless {fetched read : Bool} {tries : Nat} {v : Value} {known current : Option Bytes} {pending : Bytes} {w : World} :
    separator = [] → 0 < n → Knows separator read known → (current = none ∧ fetched = false ∨ current = some []) →
    Left n name ty separator fetched tries (fun _ => some (.textOf []))
      ((⟨name, ty, [.text separator read, v]⟩, ⟨known, pending, current, false⟩), w)

variable {n : Nat} {name : String} {ty : Ty} {separator : Bytes}

theorem readSeparator_run {read : Bool} {known : Option Bytes} (h : Knows separator read known) (hfuel : 0 < n) (v : Value)
    (pending : Bytes) (w : World) : ∃ read', readSeparator (puller n)
      ((⟨name, ty, [.text separator read, v]⟩, ⟨known, pending, none, false⟩), w) =
        .ok separator ((⟨name, ty, [.text separator read', v]⟩, ⟨some separator, pending, none, false⟩), w) := by
  obtain rfl | ⟨rfl, rfl⟩ := h
  · exact ⟨read, rfl⟩
  · obtain _ | n := n
    · omega
    let b (read : Bool) : Bound := ⟨name, ty, [.text separator read, v]⟩
    have hread : onFirst (Bound.on 0 (readAll (puller (n + 1)))) ((b false, (⟨none, pending, none, false⟩ : Splitter)), w) =
        .ok separator ((b true, ⟨none, pending, none, false⟩), w) := by
      obtain ⟨around, hrun⟩ := Inner.onFirst (b false) (⟨none, pending, none, false⟩ : Splitter)
        (Bound.on 0 (readAll (puller (n + 1)))) w
      have hon : Bound.on 0 (readAll (puller (n + 1))) (b false, { w with around }) =
          within (.text separator false) (fun text => (⟨name, ty, [text, v]⟩ : Bound)) (readAll (puller (n + 1)))
            (b false, { w with around }) := rfl
      dsimp only at hrun
      rw [hrun, hon, within_run, readAll_literal]
      rfl
    exact ⟨true, (bind_of_ok hread fun separator => do
      change fun s => (s.1, { s.2 with separator := some separator })
      return separator).trans rfl⟩

theorem cutPiece_tried {read primary : Bool} {tries tap offset : Nat} {pending rest : Bytes} {pieces : List Bytes}
    {w : World} (hseparator : separator ≠ []) (hahead : w.Ahead tap offset tries rest) (hfuel : rest.length < n)
    (hcuts : Bytes.Cuts separator (pending ++ rest) pieces) :
    Tried (fun _ => Left n name ty separator true tries (itemsOf .textOf pieces))
      (fun s' => ∃ fewer < tries, Left n name ty separator false fewer (itemsOf .textOf pieces) s')
      (cutPiece (puller n) separator
        ((⟨name, ty, [.text separator read, .input tap offset primary]⟩, ⟨some separator, pending, none, false⟩), w)) := by
  have hknows : Knows separator read (some separator) := .inl rfl
  refine Tried.loop (I := fun rest' _ s => ∃ pending' offset', ∃ w' : World,
    s = ((⟨name, ty, [.text separator read, .input tap offset' primary]⟩, ⟨some separator, pending', none, false⟩), w') ∧
      w'.Ahead tap offset' tries rest' ∧ rest'.length < n ∧ Bytes.Cuts separator (pending' ++ rest') pieces) ?_
    ⟨pending, offset, w, rfl, hahead, hfuel, hcuts⟩ hfuel
  rintro rest' - - ⟨pending', offset', w', rfl, hahead', hfuel', hcuts'⟩
  rw [bind_run, look_run]
  dsimp only
  cases hfind : Bytes.find? separator pending' with
  | some size =>
    have hlength := Bytes.find?_add_length_le hfind
    obtain ⟨others, rfl, hothers⟩ := hcuts'.cons_of_find? (Bytes.find?_append hfind rest')
    rw [List.drop_append_of_le_length hlength] at hothers
    rw [List.take_append_of_le_length (by omega)]
    exact .cut hseparator hknows hahead' hfuel' hothers
  | none =>
    refine hahead'.round hfuel'
      (fun pending v => ((⟨name, ty, [.text separator read, v]⟩ : Bound), (⟨some separator, pending, none, false⟩ : Splitter)))
      ((Inner.arg [.text separator read] (.input tap offset' primary) (puller n).textEnded).trans (.onFirst _ _ _))
      (fun _ => rfl) ?_ ?_ ?_
    · exact fun fewer hfewer w₁ hahead₁ => ⟨fewer, hfewer, .uncut hseparator hknows hahead₁ hfuel' hcuts'⟩
    · rintro rfl w₁ hahead₁
      rw [List.append_nil] at hcuts'
      cases hcuts'.eq_of_not_find? hfind
      exact .last
    · rintro chunk rest₂ offset₂ w₂ rfl hless hahead₂
      refine ⟨rest₂, hless, pending' ++ chunk, offset₂, w₂, rfl, hahead₂, by omega, ?_⟩
      rwa [List.append_assoc]

theorem fetch_tried {fetched : Bool} {tries : Nat} {items : Nat → Option Value} {s : (Bound × Splitter) × World}
    (h : Left n name ty separator fetched tries items s) :
    Tried (fun _ => Left n name ty separator true tries items)
      (fun s' => ∃ fewer < tries, Left n name ty separator false fewer items s') (fetch (puller n) s) := by
  cases h with
  | cut hseparator hknows hahead hfuel hcuts => exact .cut hseparator hknows hahead hfuel hcuts
  | last => exact .last
  | finished => exact .finished
  | @uncut read primary _ tap offset known pending rest pieces w hseparator hknows hahead hfuel hcuts =>
    obtain ⟨read', hread⟩ := readSeparator_run hknows (Nat.zero_lt_of_lt hfuel) (.input tap offset primary) pending w
    refine (congrArg (Tried _ _) (bind_of_ok hread fun separator =>
      if separator.isEmpty then change fun s => (s.1, { s.2 with current := some [] })
      else cutPiece (puller n) separator)).mpr ?_
    rw [if_neg (by simpa using hseparator)]
    exact cutPiece_tried hseparator hahead hfuel hcuts
  | @endless _ read _ v known current pending w hempty hfuel hknows hcurrent =>
    subst hempty
    obtain ⟨rfl, rfl⟩ | rfl := hcurrent
    · obtain ⟨read', hread⟩ := readSeparator_run hknows hfuel v pending w
      exact (congrArg (Tried _ _) (bind_of_ok hread fun separator =>
        if separator.isEmpty then change fun s => (s.1, { s.2 with current := some [] })
        else cutPiece (puller n) separator)).mpr (.endless rfl hfuel (.inl rfl) (.inr rfl))
    · exact .endless rfl hfuel hknows (.inr rfl)

theorem resumes (n : Nat) (name : String) (ty : Ty) (separator : Bytes) :
    Resumes (answer (puller n)) (Left n name ty separator) where
  around around h := by
    cases h with
    | uncut hseparator hknows hahead hfuel hcuts => exact .uncut hseparator hknows hahead hfuel hcuts
    | cut hseparator hknows hahead hfuel hcuts => exact .cut hseparator hknows hahead hfuel hcuts
    | last => exact .last
    | finished => exact .finished
    | endless hempty hfuel hknows hcurrent => exact .endless hempty hfuel hknows hcurrent
  ended h := (fetch_tried h).bind fun _ s' hs' => by
    cases hs' with
    | cut hseparator hknows hahead hfuel hcuts => exact ⟨rfl, .cut hseparator hknows hahead hfuel hcuts⟩
    | last => exact ⟨rfl, .last⟩
    | finished => exact ⟨rfl, .finished⟩
    | endless hempty hfuel hknows hcurrent =>
      obtain ⟨-, hfetched⟩ | rfl := hcurrent
      · cases hfetched
      · exact ⟨rfl, .endless hempty hfuel hknows (.inr rfl)⟩
  current h hx := by
    cases h with
    | cut | last =>
      cases hx
      rfl
    | finished => cases hx
    | endless _ _ _ hcurrent =>
      obtain ⟨-, hfetched⟩ | rfl := hcurrent
      · cases hfetched
      · cases hx
        rfl
  advance h hx := by
    cases h with
    | cut hseparator hknows hahead hfuel hcuts => exact ⟨_, rfl, .uncut hseparator hknows hahead hfuel hcuts⟩
    | last => exact ⟨_, rfl, .finished⟩
    | finished => cases hx
    | endless hempty hfuel hknows hcurrent =>
      obtain ⟨-, hfetched⟩ | rfl := hcurrent
      · cases hfetched
      · exact ⟨_, rfl, .endless hempty hfuel hknows (.inl ⟨rfl, rfl⟩)⟩
  ending h hnone := by
    cases h with
    | finished =>
      change Left n name ty separator false _ (itemsOf .textOf []) _
      exact .finished
    | _ => cases hnone

end Splitter

end PullScript
