import PullScript.Proofs.Script.Grammar

namespace PullScript.Script

mutual

def Atom.Whole : Atom → Prop
  | .name .. | .number _ | .text _ | .flippedOperator .. => True
  | .list items => AllWhole items
  | .subScript first rest => first.Whole ∧ AllWhole rest
  | .flipped arg _ => arg.Whole
  | .operator _ arg _ => arg.Whole
  | .unclosed .. | .broken _ => False

def Head.Whole : Head → Prop
  | .atom value => value.Whole
  | .definition _ _ _ value => value.Whole

def Element.Whole : Element → Prop
  | .apply head args => head.Whole ∧ ArgsWhole args
  | .andThen head args next => head.Whole ∧ ArgsWhole args ∧ next.Whole

def AllWhole : List Element → Prop
  | [] => True
  | element :: rest => element.Whole ∧ AllWhole rest

def ArgsWhole : List Atom → Prop
  | [] => True
  | arg :: args => arg.Whole ∧ ArgsWhole args

end

section

variable (P : Span → Prop)

mutual

def Atom.Placed : Atom → Prop
  | .name _ span => P span
  | .number _ | .text _ => True
  | .list items => AllPlaced items
  | .subScript first rest => first.Placed ∧ AllPlaced rest
  | .unclosed first rest found => first.Placed ∧ AllPlaced rest ∧ P found.span
  | .flippedOperator _ place span => P place ∧ P span
  | .flipped arg span => arg.Placed ∧ P span
  | .operator _ arg span => arg.Placed ∧ P span
  | .broken found => P found.span

def Head.Placed : Head → Prop
  | .atom value => value.Placed
  | .definition _ span _ value => P span ∧ value.Placed

def Element.Placed : Element → Prop
  | .apply head args => head.Placed ∧ ArgsPlaced args
  | .andThen head args next => head.Placed ∧ ArgsPlaced args ∧ next.Placed

def AllPlaced : List Element → Prop
  | [] => True
  | element :: rest => element.Placed ∧ AllPlaced rest

def ArgsPlaced : List Atom → Prop
  | [] => True
  | arg :: args => arg.Placed ∧ ArgsPlaced args

end

/-- The places of tokens and of the end are in `P`, and so are the ranges from a token to a later one. -/
structure TokensPlaced (stop : Span) (ts : List Token) : Prop where
  stop : P stop
  each : ∀ t ∈ ts, P t.span
  through : ts.Pairwise fun a b => P ⟨a.span.offset, b.span.stop - a.span.offset⟩

end

variable {P : Span → Prop} {stop : Span} {fuel : Nat} {ahead rest ts : List Token} {t : Token}

namespace TokensPlaced

theorem none (h : TokensPlaced P stop ts) : TokensPlaced P stop [] :=
  ⟨h.stop, by simp, .nil⟩

theorem tail (h : TokensPlaced P stop (t :: ts)) : TokensPlaced P stop ts :=
  ⟨h.stop, fun u hu => h.each u (List.mem_cons_of_mem t hu), (List.pairwise_cons.1 h.through).2⟩

theorem first (h : TokensPlaced P stop (t :: ts)) : P t.span :=
  h.each t List.mem_cons_self

theorem unexpected (h : TokensPlaced P stop ts) (wanted : Wanted) : P (unexpected stop wanted ts).span := by
  cases ts with
  | nil => exact h.stop
  | cons t ts => exact h.first

end TokensPlaced

/-- What is read is derived from the tokens that were read if it is whole; its places are where the tokens are, and so
are those of what is left. -/
abbrev ReadAs (stop : Span) (ahead rest : List Token) (phrase : Phrase) (whole : Prop)
    (placed : (Span → Prop) → Prop) : Prop :=
  (whole → ∃ ts, ahead = ts ++ rest ∧ Derives ts phrase) ∧
    ∀ {P}, TokensPlaced P stop ahead → placed P ∧ TokensPlaced P stop rest

structure Reads (stop : Span) (fuel : Nat) : Prop where
  atom {ahead : List Token} {atom : Atom} {rest : List Token} : readAtom stop fuel ahead = (atom, rest) →
    ReadAs stop ahead rest (.atom atom) atom.Whole (Atom.Placed · atom)
  items {ahead : List Token} {items : List Element} {rest : List Token} : readItems stop fuel ahead = (items, rest) →
    (AllWhole items → ∃ ts closing, ahead = ts ++ ⟨.closeBrace, closing⟩ :: rest ∧ Derives ts (.items items)) ∧
      ∀ {P}, TokensPlaced P stop ahead → AllPlaced P items ∧ TokensPlaced P stop rest
  head {ahead : List Token} {head : Head} {rest : List Token} : readHead stop fuel ahead = (head, rest) →
    ReadAs stop ahead rest (.head head) head.Whole (Head.Placed · head)
  args {ahead : List Token} {args : List Atom} {rest : List Token} : readArgs stop fuel ahead = (args, rest) →
    ReadAs stop ahead rest (.args args) (ArgsWhole args) (ArgsPlaced · args)
  element {ahead : List Token} {element : Element} {rest : List Token} : readElement stop fuel ahead = (element, rest) →
    ReadAs stop ahead rest (.element element) element.Whole (Element.Placed · element)
  elements {ahead : List Token} {first : Element} {others : List Element} {rest : List Token} :
    readElements stop fuel ahead = (first, others, rest) →
    (first.Whole → AllWhole others → ∃ ts, ahead = ts ++ rest ∧ Derives ts (.elements first others)) ∧
      ∀ {P}, TokensPlaced P stop ahead → first.Placed P ∧ AllPlaced P others ∧ TokensPlaced P stop rest

namespace Reads

theorem zero : Reads stop 0 where
  atom h := by
    cases h
    exact ⟨False.elim, fun hahead => ⟨hahead.unexpected _, hahead.none⟩⟩
  items h := by
    cases h
    exact ⟨fun hwhole => hwhole.1.1.elim, fun hahead => ⟨⟨⟨hahead.unexpected _, trivial⟩, trivial⟩, hahead.none⟩⟩
  head h := by
    cases h
    exact ⟨False.elim, fun hahead => ⟨hahead.unexpected _, hahead.none⟩⟩
  args h := by
    cases h
    exact ⟨fun _ => ⟨[], rfl, .noArgs⟩, fun hahead => ⟨trivial, hahead⟩⟩
  element h := by
    cases h
    exact ⟨fun hwhole => hwhole.1.elim, fun hahead => ⟨⟨hahead.unexpected _, trivial⟩, hahead.none⟩⟩
  elements h := by
    simp only [readElements, Prod.mk.injEq] at h
    obtain ⟨rfl, rfl, rfl⟩ := h
    exact ⟨fun hwhole => hwhole.1.elim, fun hahead => ⟨⟨hahead.unexpected _, trivial⟩, trivial, hahead.none⟩⟩

variable (h : Reads stop fuel)
include h

theorem atom_succ {atom : Atom} (hread : readAtom stop (fuel + 1) ahead = (atom, rest)) :
    ReadAs stop ahead rest (.atom atom) atom.Whole (Atom.Placed · atom) := by
  rw [readAtom.eq_def] at hread
  dsimp only at hread
  split at hread
  · next text span behind =>
    cases hread
    exact ⟨fun _ => ⟨_, rfl, .name text span⟩, fun hahead => ⟨hahead.first, hahead.tail⟩⟩
  · next n span behind =>
    cases hread
    exact ⟨fun _ => ⟨_, rfl, .number n span⟩, fun hahead => ⟨trivial, hahead.tail⟩⟩
  · next content span behind =>
    cases hread
    exact ⟨fun _ => ⟨_, rfl, .text content span⟩, fun hahead => ⟨trivial, hahead.tail⟩⟩
  · next opening behind =>
    cases hread
    refine ⟨fun hwhole => ?_, fun hahead => (h.items rfl).2 hahead.tail⟩
    obtain ⟨ts, closing, htokens, hitems⟩ := (h.items rfl).1 hwhole
    refine ⟨_, ?_, .list opening closing hitems⟩
    rw [List.cons_append, List.append_assoc, List.singleton_append, ← htokens]
  · cases hread
    exact ⟨False.elim, fun hahead => ⟨(List.pairwise_cons.1 hahead.through).1 _ List.mem_cons_self, hahead.none⟩⟩
  · next opening behind _ =>
    obtain ⟨hderives, hplaced⟩ := h.elements (rfl : readElements stop fuel behind = _)
    split at hread
    · next closing behind hbehind =>
      cases hread
      refine ⟨fun hwhole => ?_, fun hahead => ?_⟩
      · obtain ⟨ts, htokens, helements⟩ := hderives hwhole.1 hwhole.2
        refine ⟨_, ?_, .subScript opening closing helements⟩
        rw [List.cons_append, List.append_assoc, List.singleton_append, ← hbehind, ← htokens]
      · obtain ⟨hfirst, hothers, hleft⟩ := hplaced hahead.tail
        rw [hbehind] at hleft
        exact ⟨⟨hfirst, hothers⟩, hleft.tail⟩
    · cases hread
      refine ⟨False.elim, fun hahead => ?_⟩
      obtain ⟨hfirst, hothers, hleft⟩ := hplaced hahead.tail
      exact ⟨⟨hfirst, hothers, hleft.unexpected _⟩, hleft.none⟩
  · next span op place behind =>
    cases hread
    exact ⟨fun _ => ⟨_, rfl, .flippedOperator op place span⟩,
      fun hahead => ⟨⟨hahead.tail.first, hahead.first⟩, hahead.tail.tail⟩⟩
  · next span behind hnot =>
    cases hread
    refine ⟨fun hwhole => ?_, fun hahead => ?_⟩
    · obtain ⟨ts, htokens, harg⟩ := (h.atom rfl).1 hwhole
      have hahead : NoOperatorAhead ts := by
        rintro op place us rfl
        exact hnot op place _ htokens
      refine ⟨_, ?_, .flipped span hahead harg⟩
      rw [List.cons_append, ← htokens]
    · obtain ⟨harg, hleft⟩ := (h.atom rfl).2 hahead.tail
      exact ⟨⟨harg, hahead.first⟩, hleft⟩
  · next op span behind =>
    cases hread
    refine ⟨fun hwhole => ?_, fun hahead => ?_⟩
    · obtain ⟨ts, htokens, harg⟩ := (h.atom rfl).1 hwhole
      refine ⟨⟨.operator op, span⟩ :: ts, ?_, .operator op span harg⟩
      rw [List.cons_append, ← htokens]
    · obtain ⟨harg, hleft⟩ := (h.atom rfl).2 hahead.tail
      exact ⟨⟨harg, hahead.first⟩, hleft⟩
  · cases hread
    exact ⟨False.elim, fun hahead => ⟨hahead.unexpected _, hahead.none⟩⟩

theorem items_succ {items : List Element} (hread : readItems stop (fuel + 1) ahead = (items, rest)) :
    (AllWhole items → ∃ ts closing, ahead = ts ++ ⟨.closeBrace, closing⟩ :: rest ∧ Derives ts (.items items)) ∧
      ∀ {P}, TokensPlaced P stop ahead → AllPlaced P items ∧ TokensPlaced P stop rest := by
  -- Either the list ends here, or an item is read and what follows it decides.
  rw [readItems.eq_def] at hread
  dsimp only at hread
  split at hread
  · cases hread
    exact ⟨fun _ => ⟨[], _, rfl, .noItems⟩, fun hahead => ⟨trivial, hahead.tail⟩⟩
  · cases hitem : readElement stop fuel ahead with
    | mk item behind =>
      obtain ⟨hderives, hplaced⟩ := h.element hitem
      rw [hitem] at hread
      dsimp only at hread
      split at hread
      · next comma behind =>
        cases hread
        refine ⟨fun hwhole => ?_, fun hahead => ?_⟩
        · obtain ⟨ts, rfl, hfirst⟩ := hderives hwhole.1
          obtain ⟨us, closing, htokens, hothers⟩ := (h.items rfl).1 hwhole.2
          refine ⟨_, closing, ?_, .item comma hfirst hothers⟩
          rw [List.append_assoc, List.cons_append, ← htokens]
        · obtain ⟨hothers, hleft⟩ := (h.items rfl).2 (hplaced hahead).2.tail
          exact ⟨⟨(hplaced hahead).1, hothers⟩, hleft⟩
      · cases hread
        refine ⟨fun hwhole => ?_, fun hahead => ⟨⟨(hplaced hahead).1, trivial⟩, (hplaced hahead).2.tail⟩⟩
        obtain ⟨ts, rfl, hfirst⟩ := hderives hwhole.1
        exact ⟨ts, _, rfl, .lastItem hfirst⟩
      · cases hread
        refine ⟨fun hwhole => hwhole.2.1.1.elim, fun hahead => ?_⟩
        obtain ⟨hfirst, hbehind⟩ := hplaced hahead
        exact ⟨⟨hfirst, ⟨hbehind.unexpected _, trivial⟩, trivial⟩, hbehind.none⟩

theorem head_succ {head : Head} (hread : readHead stop (fuel + 1) ahead = (head, rest)) :
    ReadAs stop ahead rest (.head head) head.Whole (Head.Placed · head) := by
  rw [readHead.eq_def] at hread
  dsimp only at hread
  split at hread
  · next opening name span doc quoted behind =>
    cases hread
    refine ⟨fun hwhole => ?_, fun hahead => ?_⟩
    · obtain ⟨ts, htokens, hvalue⟩ := (h.atom rfl).1 hwhole
      refine ⟨_, ?_, .definition opening span quoted name doc hvalue⟩
      rw [List.cons_append, List.cons_append, List.cons_append, ← htokens]
    · obtain ⟨hvalue, hleft⟩ := (h.atom rfl).2 hahead.tail.tail.tail
      exact ⟨⟨hahead.tail.first, hvalue⟩, hleft⟩
  · cases hread
    exact ⟨False.elim, fun hahead => ⟨hahead.tail.tail.unexpected _, hahead.none⟩⟩
  · cases hread
    exact ⟨False.elim, fun hahead => ⟨hahead.tail.unexpected _, hahead.none⟩⟩
  · cases hread
    refine ⟨fun hwhole => ?_, (h.atom rfl).2⟩
    obtain ⟨ts, htokens, hvalue⟩ := (h.atom rfl).1 hwhole
    exact ⟨ts, htokens, .plain hvalue⟩

theorem args_succ {args : List Atom} (hread : readArgs stop (fuel + 1) ahead = (args, rest)) :
    ReadAs stop ahead rest (.args args) (ArgsWhole args) (ArgsPlaced · args) := by
  rw [readArgs.eq_def] at hread
  dsimp only at hread
  split at hread
  · cases hread
    exact ⟨fun _ => ⟨[], rfl, .noArgs⟩, fun hahead => ⟨trivial, hahead⟩⟩
  · cases harg : readAtom stop fuel ahead with
    | mk arg behind =>
      obtain ⟨hderives, hplaced⟩ := h.atom harg
      rw [harg] at hread
      cases hread
      refine ⟨fun hwhole => ?_, fun hahead => ?_⟩
      · obtain ⟨ts, rfl, hfirst⟩ := hderives hwhole.1
        obtain ⟨us, htokens, hothers⟩ := (h.args rfl).1 hwhole.2
        refine ⟨_, ?_, .arg hfirst hothers⟩
        rw [List.append_assoc, ← htokens]
      · obtain ⟨hothers, hleft⟩ := (h.args rfl).2 (hplaced hahead).2
        exact ⟨⟨(hplaced hahead).1, hothers⟩, hleft⟩

theorem element_succ {element : Element} (hread : readElement stop (fuel + 1) ahead = (element, rest)) :
    ReadAs stop ahead rest (.element element) element.Whole (Element.Placed · element) := by
  rw [readElement] at hread
  cases hhead : readHead stop fuel ahead with
  | mk head behind =>
    cases hargs : readArgs stop fuel behind with
    | mk args ahead' =>
      obtain ⟨hhead', hplaced⟩ := h.head hhead
      obtain ⟨hargs', hplaced'⟩ := h.args hargs
      rw [hhead] at hread
      dsimp only at hread
      rw [hargs] at hread
      dsimp only at hread
      split at hread
      · next semicolon behind =>
        cases hread
        refine ⟨fun hwhole => ?_, fun hahead => ?_⟩
        · obtain ⟨ts, rfl, hfirst⟩ := hhead' hwhole.1
          obtain ⟨us, rfl, hothers⟩ := hargs' hwhole.2.1
          obtain ⟨vs, htokens, hnext⟩ := (h.element rfl).1 hwhole.2.2
          refine ⟨_, ?_, .andThen semicolon hfirst hothers hnext⟩
          rw [List.append_assoc, List.append_assoc, List.cons_append, ← htokens]
        · obtain ⟨hfirst, hbehind⟩ := hplaced hahead
          obtain ⟨hothers, hahead'⟩ := hplaced' hbehind
          obtain ⟨hnext, hleft⟩ := (h.element rfl).2 hahead'.tail
          exact ⟨⟨hfirst, hothers, hnext⟩, hleft⟩
      · cases hread
        refine ⟨fun hwhole => ?_, fun hahead => ?_⟩
        · obtain ⟨ts, rfl, hfirst⟩ := hhead' hwhole.1
          obtain ⟨us, rfl, hothers⟩ := hargs' hwhole.2
          exact ⟨_, (List.append_assoc ..).symm, .apply hfirst hothers⟩
        · obtain ⟨hfirst, hbehind⟩ := hplaced hahead
          exact ⟨⟨hfirst, (hplaced' hbehind).1⟩, (hplaced' hbehind).2⟩

theorem elements_succ {first : Element} {others : List Element}
    (hread : readElements stop (fuel + 1) ahead = (first, others, rest)) :
    (first.Whole → AllWhole others → ∃ ts, ahead = ts ++ rest ∧ Derives ts (.elements first others)) ∧
      ∀ {P}, TokensPlaced P stop ahead → first.Placed P ∧ AllPlaced P others ∧ TokensPlaced P stop rest := by
  rw [readElements] at hread
  cases helement : readElement stop fuel ahead with
  | mk element behind =>
    obtain ⟨hderives, hplaced⟩ := h.element helement
    rw [helement] at hread
    dsimp only at hread
    split at hread
    · next comma behind =>
      simp only [Prod.mk.injEq] at hread
      obtain ⟨rfl, rfl, rfl⟩ := hread
      refine ⟨fun hfirst hothers => ?_, fun hahead => ?_⟩
      · obtain ⟨ts, rfl, hone⟩ := hderives hfirst
        obtain ⟨us, htokens, hrest⟩ := (h.elements rfl).1 hothers.1 hothers.2
        refine ⟨_, ?_, .comma comma hone hrest⟩
        rw [List.append_assoc, List.cons_append, ← htokens]
      · obtain ⟨hfirst, hbehind⟩ := hplaced hahead
        obtain ⟨hsecond, hothers, hleft⟩ := (h.elements rfl).2 hbehind.tail
        exact ⟨hfirst, ⟨hsecond, hothers⟩, hleft⟩
    · simp only [Prod.mk.injEq] at hread
      obtain ⟨rfl, rfl, rfl⟩ := hread
      refine ⟨fun hfirst _ => ?_, fun hahead => ⟨(hplaced hahead).1, trivial, (hplaced hahead).2⟩⟩
      obtain ⟨ts, rfl, hone⟩ := hderives hfirst
      exact ⟨ts, rfl, .single hone⟩

end Reads

theorem reads (stop : Span) (fuel : Nat) : Reads stop fuel := by
  induction fuel with
  | zero => exact .zero
  | succ fuel ih =>
    exact ⟨ih.atom_succ, ih.items_succ, ih.head_succ, ih.args_succ, ih.element_succ, ih.elements_succ⟩

theorem Derives.unique {tokens : List Token} {first first' : Element} {rest rest' : List Element}
    (h : Derives (beforeStop tokens) (.elements first rest))
    (h' : Derives (beforeStop tokens) (.elements first' rest')) : first = first' ∧ rest = rest' := by
  have heq := h.ofTokens.symm.trans h'.ofTokens
  simpa using heq

theorem symbol?_ne_stop (c : Char) : symbol? c ≠ some .stop := by
  unfold symbol?
  split <;> simp

theorem readToken_ne_stop {c : Char} {rest : List Char} {kind : TokenKind} {length : Nat}
    (h : readToken c rest = .ok (kind, length)) : kind ≠ .stop := by
  rintro rfl
  unfold readToken at h
  split at h
  · split at h <;> simp at h
  · split at h
    · simp [readNumber] at h
    · split at h
      · simp only [readName, Except.ok.injEq, Prod.mk.injEq] at h
        obtain ⟨hkind, -⟩ := h
        split at hkind <;> cases hkind
      · split at h
        · next hsymbol =>
          simp only [Except.ok.injEq, Prod.mk.injEq] at h
          rw [h.1] at hsymbol
          exact symbol?_ne_stop c hsymbol
        · cases h

theorem tokensFrom_ends {offset skip : Nat} {chars : List Char} {ts : List Token}
    (h : tokensFrom offset skip chars = .ok ts) :
    ∃ before span, ts = before ++ [⟨.stop, span⟩] ∧ ∀ t ∈ before, t.kind ≠ .stop := by
  induction chars generalizing offset skip ts with
  | nil =>
    cases h
    exact ⟨[], _, rfl, by simp⟩
  | cons c rest ih =>
    cases skip with
    | succ skip => exact ih h
    | zero =>
      unfold tokensFrom at h
      dsimp only at h
      split at h
      · exact ih h
      · split at h
        · exact ih h
        · split at h
          · next kind length htoken =>
            cases hothers : tokensFrom (offset + c.utf8Size) (length - 1) rest with
            | error error =>
              rw [hothers] at h
              cases h
            | ok others =>
              rw [hothers] at h
              cases h
              obtain ⟨before, span, rfl, hbefore⟩ := ih hothers
              refine ⟨_ :: before, span, rfl, List.forall_mem_cons.2 ⟨?_, hbefore⟩⟩
              exact readToken_ne_stop htoken
          · cases h

theorem beforeStop_append {before : List Token} (span : Span) (h : ∀ t ∈ before, t.kind ≠ .stop) :
    beforeStop (before ++ [⟨.stop, span⟩]) = before := by
  unfold beforeStop
  rw [List.takeWhile_append_of_pos]
  · simp
  · intro t ht
    have hkind := h t ht
    cases hstop : t.kind <;> simp_all

end PullScript.Script
