import PullScript.Proofs.Cutting.Serving
import PullScript.Proofs.Text.Pieces

namespace PullScript

open Act

namespace Splitter

/-- The arguments of a splitter: the separator has been read or can still be, and the text has chunks ahead. -/
inductive Ready (separator : Bytes) : Bound → Option Bytes → List Bytes → Prop where
  | mk {name : String} {ty : Ty} {first source : Value} {known : Option Bytes} {ahead : List Bytes} :
    known = some separator ∨ known = none ∧ Given first separator → Serving source ahead →
      Ready separator ⟨name, ty, [first, source]⟩ known ahead

inductive Facing (separator : Bytes) : Bound × Splitter → List Bytes → Prop where
  | finished {b : Bound} {known : Option Bytes} {pending : Bytes} :
    Facing separator (b, ⟨known, pending, none, true⟩) []
  | last {b : Bound} {known : Option Bytes} {pending piece : Bytes} :
    Facing separator (b, ⟨known, pending, some piece, true⟩) [piece]
  | cut {b : Bound} {known : Option Bytes} {ahead : List Bytes} {pending piece : Bytes} {pieces : List Bytes} :
    Ready separator b known ahead → Bytes.Cuts separator (pending ++ ahead.flatten) pieces →
      Facing separator (b, ⟨known, pending, some piece, false⟩) (piece :: pieces)
  | uncut {b : Bound} {known : Option Bytes} {ahead : List Bytes} {pending : Bytes} {pieces : List Bytes} :
    Ready separator b known ahead → Bytes.Cuts separator (pending ++ ahead.flatten) pieces →
      Facing separator (b, ⟨known, pending, none, false⟩) pieces

variable {separator : Bytes} {b : Bound} {s : Bound × Splitter} {known : Option Bytes} {ahead pieces : List Bytes}

namespace Ready

theorem yields_readSeparator (h : Ready separator b known ahead) (pending : Bytes) (current : Option Bytes)
    (done : Bool) :
    ∃ b', Ready separator b' (some separator) ahead ∧
      Yields (fun fuel => readSeparator (puller fuel)) (b, ⟨known, pending, current, done⟩) [] separator
        (b', ⟨some separator, pending, current, done⟩) := by
  obtain @⟨name, ty, first, source, _, _, rfl | ⟨rfl, hfirst⟩, hsource⟩ := h
  · exact ⟨_, .mk (.inl rfl) hsource, .look (.pure separator _)⟩
  · obtain ⟨first', hread⟩ := hfirst.yields_readAll
    refine ⟨⟨name, ty, [first', source]⟩, .mk (.inl rfl) hsource, .look ?_⟩
    exact ((Bound.yields_on rfl hread).onFirst _).andThen ((Yields.change _ _).andThen (.pure separator _))

theorem yields_ended (h : Ready separator b known ahead) (splitter : Splitter) :
    Yields (fun fuel => onFirst (Bound.on 1 (puller fuel).textEnded)) (b, splitter) [] ahead.isEmpty
      (b, splitter) := by
  obtain ⟨_, hsource⟩ := h
  exact (Bound.yields_on rfl hsource.yields_ended).onFirst splitter

theorem yields_streamMore {part : Bytes} (h : Ready separator b known (part :: ahead)) (splitter : Splitter) :
    ∃ source b', Ready separator b' known ahead ∧
      Yields (fun _ => onFirst (Bound.arg 1)) (b, splitter) [] source (b, splitter) ∧
      Yields (fun fuel => within (splitter.pending, source)
        (fun (pending, source) => ({ b with args := b.args.set 1 source }, { splitter with pending }))
        (streamMore (puller fuel))) (b, splitter) [] ()
        (b', { splitter with pending := splitter.pending ++ part }) := by
  obtain ⟨hknown, hsource⟩ := h
  obtain ⟨source', hsource', hmore⟩ := hsource.yields_streamMore splitter.pending
  exact ⟨_, _, .mk hknown hsource', (Bound.yields_arg rfl).onFirst splitter, hmore.within _⟩

end Ready

namespace Facing

theorem of_found {pending : Bytes} {size : Nat} (h : Ready separator b known ahead)
    (hfind : Bytes.find? separator pending = some size)
    (hcuts : Bytes.Cuts separator (pending ++ ahead.flatten) pieces) :
    Facing separator (b, ⟨known, pending.drop (size + separator.length), some (pending.take size), false⟩) pieces ∧
      pieces.head? = some (pending.take size) := by
  have hlength := Bytes.find?_add_length_le hfind
  obtain ⟨rest, rfl, hrest⟩ := hcuts.cons_of_find? (Bytes.find?_append hfind ahead.flatten)
  rw [List.drop_append_of_le_length hlength] at hrest
  rw [List.take_append_of_le_length (by omega)]
  exact ⟨.cut h hrest, rfl⟩

theorem step (h : Facing separator s pieces) (hcurrent : s.2.current = pieces.head?) :
    Facing separator (s.1, { s.2 with current := none }) pieces.tail := by
  cases h with
  | finished => exact .finished
  | last => exact .finished
  | cut hready hcuts => exact .uncut hready hcuts
  | uncut _ hcuts =>
    cases pieces with
    | nil => exact absurd rfl hcuts.ne_nil
    | cons piece pieces => cases hcurrent

end Facing

theorem yields_cutPiece (pending : Bytes) (passed : Nat) (h : Ready separator b known ahead)
    (hcuts : Bytes.Cuts separator (pending ++ ahead.flatten) pieces) :
    ∃ s, Facing separator s pieces ∧ s.2.current = pieces.head? ∧
      Yields (fun fuel => loop (fun () => do
        let (b, splitter) ← look
        match Bytes.find? separator splitter.pending with
        | some size =>
          put (b, { splitter with
            current := some (splitter.pending.take size)
            pending := splitter.pending.drop (size + separator.length) })
          return .inr ()
        | none =>
          if ← onFirst (Bound.on 1 (puller fuel).textEnded) then
            change fun (b, splitter) =>
              (b, { splitter with current := some splitter.pending, pending := [], done := true })
            return .inr ()
          let (b, splitter) ← look
          let source ← onFirst (Bound.arg 1)
          within (splitter.pending, source)
            (fun (pending, source) =>
              ({ b with args := b.args.set 1 source }, { splitter with pending }))
            (streamMore (puller fuel))
          return .inl ()) (fuel - passed) ()) (b, ⟨known, pending, none, false⟩) [] () s := by
  induction ahead generalizing b pending passed with
  | nil =>
    cases hfind : Bytes.find? separator pending with
    | some size =>
      obtain ⟨hfacing, hhead⟩ := Facing.of_found h hfind hcuts
      refine ⟨_, hfacing, hhead.symm, .done (.look ?_)⟩
      simp only [hfind]
      exact (Yields.put _ _).andThen (.pure _ _)
    | none =>
      rw [List.flatten_nil, List.append_nil] at hcuts
      cases hcuts.eq_of_not_find? hfind
      refine ⟨(b, ⟨known, [], some pending, true⟩), .last, rfl, .done (.look ?_)⟩
      simp only [hfind]
      exact (h.yields_ended _).andThen ((Yields.change _ _).andThen (.pure _ _))
  | cons part ahead ih =>
    cases hfind : Bytes.find? separator pending with
    | some size =>
      obtain ⟨hfacing, hhead⟩ := Facing.of_found h hfind hcuts
      refine ⟨_, hfacing, hhead.symm, .done (.look ?_)⟩
      simp only [hfind]
      exact (Yields.put _ _).andThen (.pure _ _)
    | none =>
      obtain ⟨source, b', hready, harg, hmore⟩ := h.yields_streamMore ⟨known, pending, none, false⟩
      rw [List.flatten_cons, ← List.append_assoc] at hcuts
      obtain ⟨s, hfacing, hcurrent, hrest⟩ := ih (pending ++ part) (passed + 1) hready hcuts
      refine ⟨s, hfacing, hcurrent, .againQuietly (.look ?_) hrest⟩
      simp only [hfind]
      exact (h.yields_ended _).andThen (.look (harg.andThen (hmore.andThen (.pure _ _))))

theorem Facing.yields_fetch (h : Facing separator s pieces) (hseparator : separator ≠ []) :
    ∃ s', Facing separator s' pieces ∧ s'.2.current = pieces.head? ∧
      Yields (fun fuel => fetch (puller fuel)) s [] () s' := by
  cases h with
  | finished => exact ⟨_, .finished, rfl, .look (.pure () _)⟩
  | last => exact ⟨_, .last, rfl, .look (.pure () _)⟩
  | cut hready hcuts => exact ⟨_, .cut hready hcuts, rfl, .look (.pure () _)⟩
  | @uncut b known ahead pending pieces hready hcuts =>
    obtain ⟨b', hready', hread⟩ := hready.yields_readSeparator pending none false
    obtain ⟨s', hfacing, hcurrent, hcut⟩ := yields_cutPiece pending 0 hready' hcuts
    refine ⟨s', hfacing, hcurrent, .look (hread.andThen ?_)⟩
    have hempty : separator.isEmpty = false := by
      rw [List.isEmpty_eq_false_iff]
      exact hseparator
    simp only [hempty]
    exact hcut

end Splitter

/-- A list with the texts that it has still to hand out. It stays one when its items are made fit for a list of
texts. -/
inductive Offering : Value → List Bytes → Prop where
  | split {separator : Bytes} {b : Bound} {splitter : Splitter} {pieces : List Bytes} :
    separator ≠ [] → Splitter.Facing separator (b, splitter) pieces → Offering (b.suspend (.split splitter)) pieces
  | recast {ty : Ty} {source : Value} {position : Nat} {pieces : List Bytes} :
    (∀ target ∈ ty.elements, target.kind = .str) → Offering source pieces →
      Offering (.recast ty source position) pieces

namespace Yields

variable {ask : ListAsk} {reply : ask.Reply} {bytes : Bytes}

theorem ofSplit {b b' : Bound} {splitter splitter' : Splitter}
    (h : Yields (fun fuel => Splitter.answer (puller fuel) ask) (b, splitter) bytes reply (b', splitter')) :
    Yields (fun fuel => (puller fuel).pull (.list ask)) (b.suspend (.split splitter)) bytes reply
      (b'.suspend (.split splitter')) :=
  pull rfl (look (h.within _))

theorem ofRecast {ty : Ty} {source source' : Value} {position position' : Nat}
    (h : Yields (fun fuel => answerRecast (puller fuel) ty ask) (source, position) bytes reply (source', position')) :
    Yields (fun fuel => (puller fuel).pull (.list ask)) (.recast ty source position) bytes reply
      (.recast ty source' position') :=
  pull rfl (look (h.within _))

end Yields

theorem coerce_textOf {σ : Type} [Holder σ] (p : Puller) (bytes : Bytes) {target : Ty} (h : target.kind = .str) :
    (coerce p (.textOf bytes) target : Act σ Value) = Pure.pure (.textOf bytes) := by
  cases target <;> first | rfl | cases h

namespace Offering

variable {v : Value} {piece : Bytes} {pieces : List Bytes}

theorem kind_eq (h : Offering v pieces) : v.kind = .lst := by
  cases h <;> rfl

theorem yields_ended (h : Offering v pieces) :
    ∃ v', Offering v' pieces ∧ Yields (fun fuel => (puller fuel).listEnded) v [] pieces.isEmpty v' := by
  induction h with
  | @split separator b splitter pieces hseparator hfacing =>
    obtain ⟨⟨b', splitter'⟩, hfacing', hcurrent, hfetch⟩ := hfacing.yields_fetch hseparator
    have hended : pieces.isEmpty = splitter'.current.isNone := by
      rw [show splitter'.current = pieces.head? from hcurrent]
      cases pieces <;> rfl
    refine ⟨_, .split hseparator hfacing', .ofSplit (hfetch.andThen (.look ?_))⟩
    rw [hended]
    exact .pure _ _
  | recast hty _ ih =>
    obtain ⟨source', hsource', hended⟩ := ih
    exact ⟨_, .recast hty hsource', .ofRecast (hended.onFirst _)⟩

theorem yields_current (h : Offering v (piece :: pieces)) :
    ∃ v', Offering v' (piece :: pieces) ∧ Yields (fun fuel => (puller fuel).current) v [] (.textOf piece) v' := by
  generalize hall : piece :: pieces = all at h
  induction h with
  | @split separator b splitter pieces hseparator hfacing =>
    subst hall
    obtain ⟨⟨b', splitter'⟩, hfacing', hcurrent, hfetch⟩ := hfacing.yields_fetch hseparator
    have hcurrent : splitter'.current = some piece := hcurrent
    refine ⟨_, .split hseparator hfacing', .ofSplit (hfetch.andThen (.look ?_))⟩
    simp only [hcurrent]
    exact .pure _ _
  | @recast ty source position _ hty _ ih =>
    obtain ⟨source', hsource', hitem⟩ := ih hall
    refine ⟨.recast ty source' position, .recast hty hsource', .ofRecast ((hitem.onFirst position).andThen (.look ?_))⟩
    cases htarget : ty.elements[position % ty.elements.length]? with
    | none => exact .pure _ _
    | some target =>
      simp only [coerce_textOf _ _ (hty target (List.mem_of_getElem? htarget))]
      exact .pure _ _

theorem yields_advance (h : Offering v pieces) :
    ∃ v', Offering v' pieces.tail ∧ Yields (fun fuel => (puller fuel).advance) v [] () v' := by
  induction h with
  | @split separator b splitter pieces hseparator hfacing =>
    obtain ⟨⟨b', splitter'⟩, hfacing', hcurrent, hfetch⟩ := hfacing.yields_fetch hseparator
    exact ⟨_, .split hseparator (hfacing'.step hcurrent), .ofSplit (hfetch.andThen (.change _ _))⟩
  | recast hty _ ih =>
    obtain ⟨source', hsource', hadvance⟩ := ih
    exact ⟨_, .recast hty hsource', .ofRecast ((hadvance.onFirst _).andThen (.change _ _))⟩

theorem yields_next (h : Offering v pieces) :
    ∃ v', Offering v' pieces.tail ∧ Yields (fun fuel => (puller fuel).next) v [] (pieces.head?.map .textOf) v' := by
  obtain ⟨v₁, hv₁, hended⟩ := h.yields_ended
  cases pieces with
  | nil => exact ⟨v₁, hv₁, hended.andThen (.pure _ _)⟩
  | cons piece pieces =>
    obtain ⟨v₂, hv₂, hcurrent⟩ := hv₁.yields_current
    obtain ⟨v₃, hv₃, hadvance⟩ := hv₂.yields_advance
    exact ⟨v₃, hv₃, hended.andThen (hcurrent.andThen ((hadvance.holding _).andThen (.pure _ _)))⟩

theorem yields_rounds (items : List Value) (passed : Nat) (h : Offering v pieces) :
    ∃ v', Yields (fun fuel => loop (fun items => do
        match ← holding items (puller fuel).next with
        | some item => return .inl (item :: items)
        | none => return .inr items) (fuel - passed) items) v [] ((pieces.map .textOf).reverse ++ items) v' := by
  induction pieces generalizing v items passed with
  | nil =>
    obtain ⟨v', -, hnext⟩ := h.yields_next
    exact ⟨v', .done ((hnext.holding items).andThen (.pure _ _))⟩
  | cons piece pieces ih =>
    obtain ⟨v₁, hv₁, hnext⟩ := h.yields_next
    obtain ⟨v', hrest⟩ := ih (.textOf piece :: items) (passed + 1) hv₁
    rw [List.map_cons, List.reverse_cons, List.append_assoc]
    exact ⟨v', .againQuietly ((hnext.holding items).andThen (.pure _ _)) hrest⟩

theorem yields_drainItems (h : Offering v pieces) :
    ∃ v', Yields (fun fuel => drainItems (puller fuel)) v [] (pieces.map .textOf).reverse v' := by
  have hkind : Yields (fun _ => requireKind .lst) v [] () v := by
    refine .look ?_
    simp only [h.kind_eq, if_true]
    exact .pure () v
  obtain ⟨v', hrounds⟩ := h.yields_rounds [] 0
  rw [List.append_nil] at hrounds
  exact ⟨v', hkind.andThen hrounds⟩

end Offering

end PullScript
