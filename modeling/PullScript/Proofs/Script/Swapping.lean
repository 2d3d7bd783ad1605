import PullScript.Proofs.Script.Names

namespace PullScript.Script

section Trees

variable (N : String → Atom → Prop) (D : String → Prop)

mutual

/-- The same atoms but for their places and for names, each of which may stand for an atom in `N`. Only
names in `D` are defined. -/
inductive Atom.Like : Atom → Atom → Prop
  | name {text : String} {atom : Atom} (span : Span) : N text atom → Atom.Like (.name text span) atom
  | number (n : Float) : Atom.Like (.number n) (.number n)
  | text (content : String) : Atom.Like (.text content) (.text content)
  | list {items items' : List Element} : ElementsLike items items' → Atom.Like (.list items) (.list items')
  | subScript {first first' : Element} {rest rest' : List Element} :
    Element.Like first first' → ElementsLike rest rest' →
    Atom.Like (.subScript first rest) (.subScript first' rest')
  | flippedOperator (op : Operator) (place place' span span' : Span) :
    Atom.Like (.flippedOperator op place span) (.flippedOperator op place' span')
  | flipped {arg arg' : Atom} (span span' : Span) : Atom.Like arg arg' →
    Atom.Like (.flipped arg span) (.flipped arg' span')
  | operator {arg arg' : Atom} (op : Operator) (span span' : Span) : Atom.Like arg arg' →
    Atom.Like (.operator op arg span) (.operator op arg' span')

inductive Head.Like : Head → Head → Prop
  | atom {value value' : Atom} : Atom.Like value value' → Head.Like (.atom value) (.atom value')
  | definition {name : String} {value value' : Atom} (span span' : Span) (doc : String) : D name →
    Atom.Like value value' →
    Head.Like (.definition name span doc value) (.definition name span' doc value')

inductive Element.Like : Element → Element → Prop
  | apply {head head' : Head} {args args' : List Atom} : Head.Like head head' → ArgsLike args args' →
    Element.Like (.apply head args) (.apply head' args')
  | andThen {head head' : Head} {args args' : List Atom} {next next' : Element} :
    Head.Like head head' → ArgsLike args args' → Element.Like next next' →
    Element.Like (.andThen head args next) (.andThen head' args' next')

inductive ArgsLike : List Atom → List Atom → Prop
  | nil : ArgsLike [] []
  | cons {arg arg' : Atom} {args args' : List Atom} : Atom.Like arg arg' → ArgsLike args args' →
    ArgsLike (arg :: args) (arg' :: args')

inductive ElementsLike : List Element → List Element → Prop
  | nil : ElementsLike [] []
  | cons {element element' : Element} {rest rest' : List Element} : Element.Like element element' →
    ElementsLike rest rest' → ElementsLike (element :: rest) (element' :: rest')

end

def Phrase.DerivesLike (us : List Token) : Phrase → Prop
  | .atom value => ∃ value', Derives us (.atom value') ∧ value.Like N D value'
  | .items values => ∃ values', Derives us (.items values') ∧ ElementsLike N D values values'
  | .head first => ∃ first', Derives us (.head first') ∧ first.Like N D first'
  | .args values => ∃ values', Derives us (.args values') ∧ ArgsLike N D values values'
  | .element value => ∃ value', Derives us (.element value') ∧ value.Like N D value'
  | .elements first rest =>
    ∃ first' rest', Derives us (.elements first' rest') ∧ first.Like N D first' ∧ ElementsLike N D rest rest'

end Trees

def Phrase.definitions : Phrase → List String
  | .atom value => value.definitions
  | .items values => elementsDefinitions values
  | .head first => first.definitions
  | .args values => argsDefinitions values
  | .element value => value.definitions
  | .elements first rest => first.definitions ++ elementsDefinitions rest

theorem Derives.atom_ne_nil {ts : List Token} {atom : Atom} (h : Derives ts (.atom atom)) : ts ≠ [] := by
  obtain ⟨t, us, rfl, -⟩ := h.startsWith
  exact List.cons_ne_nil t us

theorem Derives.definitions_eq_nil {ts : List Token} {phrase : Phrase} (h : Derives ts phrase)
    (hts : ∀ t ∈ ts, t.kind ≠ .definition) : phrase.definitions = [] := by
  induction h with
  | definition opening => exact absurd rfl (hts ⟨.definition, opening⟩ List.mem_cons_self)
  | _ =>
    simp_all [Phrase.definitions, Atom.definitions, Head.definitions, Element.definitions,
      argsDefinitions, elementsDefinitions]

def TokenKind.swapped (swap : String → List TokenKind) : TokenKind → List TokenKind
  | .name word => swap word
  | kind => [kind]

def Swaps (swap : String → List TokenKind) (ts us : List Token) : Prop :=
  us.map (·.kind) = (ts.map (·.kind)).flatMap (·.swapped swap)

namespace Swaps

variable {swap : String → List TokenKind} {ts ts' us : List Token}

theorem nil (h : Swaps swap [] us) : us = [] :=
  List.map_eq_nil_iff.1 h

theorem append (h : Swaps swap (ts ++ ts') us) :
    ∃ vs vs', us = vs ++ vs' ∧ Swaps swap ts vs ∧ Swaps swap ts' vs' := by
  rw [Swaps, List.map_append, List.flatMap_append, List.map_eq_append_iff] at h
  exact h

theorem cons {kind : TokenKind} {span : Span} (h : Swaps swap (⟨kind, span⟩ :: ts) us)
    (hkind : kind.swapped swap = [kind]) : ∃ span' vs, us = ⟨kind, span'⟩ :: vs ∧ Swaps swap ts vs := by
  rw [Swaps, List.map_cons, List.flatMap_cons, hkind, List.singleton_append, List.map_eq_cons_iff] at h
  obtain ⟨⟨_, span'⟩, vs, rfl, rfl, hvs⟩ := h
  exact ⟨span', vs, rfl, hvs⟩

theorem separated {kind : TokenKind} {span : Span} (h : Swaps swap (ts ++ ⟨kind, span⟩ :: ts') us)
    (hkind : kind.swapped swap = [kind]) :
    ∃ span' vs vs', us = vs ++ ⟨kind, span'⟩ :: vs' ∧ Swaps swap ts vs ∧ Swaps swap ts' vs' := by
  obtain ⟨vs, _, rfl, hvs, hback⟩ := h.append
  obtain ⟨span', vs', rfl, hvs'⟩ := hback.cons hkind
  exact ⟨span', vs, vs', rfl, hvs, hvs'⟩

theorem enclosed {opening closing : TokenKind} {first last : Span}
    (h : Swaps swap (⟨opening, first⟩ :: (ts ++ [⟨closing, last⟩])) us) (hopening : opening.swapped swap = [opening])
    (hclosing : closing.swapped swap = [closing]) :
    ∃ first' last' vs, us = ⟨opening, first'⟩ :: (vs ++ [⟨closing, last'⟩]) ∧ Swaps swap ts vs := by
  obtain ⟨first', _, rfl, hinner⟩ := h.cons hopening
  obtain ⟨last', vs, _, rfl, hvs, hnil⟩ := hinner.separated hclosing
  obtain rfl := hnil.nil
  exact ⟨first', last', vs, rfl, hvs⟩

end Swaps

/-- What may be put in the place of names: the tokens of atoms that do not start with an operator. Names
that are defined stay. -/
structure Swappable (N : String → Atom → Prop) (D : String → Prop) (swap : String → List TokenKind) :
    Prop where
  derives : ∀ text us, us.map (·.kind) = swap text → ∃ atom, Derives us (.atom atom) ∧ N text atom
  starts : ∀ text, ∃ kind rest, swap text = kind :: rest ∧ ∀ op, kind ≠ .operator op
  stays : ∀ name, D name → swap name = [.name name]

section Derivations

variable {N : String → Atom → Prop} {D : String → Prop} {swap : String → List TokenKind}

theorem Swappable.noOperatorAhead (h : Swappable N D swap) {ts us : List Token} (hts : NoOperatorAhead ts)
    (hstarts : ts ≠ []) (hus : Swaps swap ts us) : NoOperatorAhead us := by
  intro op span vs hvs
  obtain ⟨⟨kind, place⟩, rest, rfl⟩ := List.exists_cons_of_ne_nil hstarts
  obtain ⟨first, others, hfirst, hne⟩ : ∃ first others, kind.swapped swap = first :: others ∧
      first ≠ .operator op := by
    cases kind with
    | name word =>
      obtain ⟨first, others, hfirst, hne⟩ := h.starts word
      exact ⟨first, others, hfirst, hne op⟩
    | operator op' =>
      exact absurd rfl (hts op' place rest)
    | _ => exact ⟨_, _, rfl, by simp⟩
  rw [Swaps, hvs, List.map_cons, List.map_cons, List.flatMap_cons, hfirst] at hus
  exact hne (List.cons.inj hus).1.symm

/-- Where only names in `D` are defined, tokens with names swapped are derived from a part of a tree like the one
of the tokens themselves. By induction on the derivation, which says how the tokens are cut. -/
theorem Derives.swapped (hswap : Swappable N D swap) {ts : List Token} {phrase : Phrase} (h : Derives ts phrase)
    (hdefs : ∀ name ∈ phrase.definitions, D name) {us : List Token} (hus : Swaps swap ts us) :
    phrase.DerivesLike N D us := by
  induction h generalizing us with
  | name text span =>
    have hkinds : us.map (·.kind) = swap text := by simpa [Swaps, TokenKind.swapped] using hus
    obtain ⟨atom, hatom, hN⟩ := hswap.derives text us hkinds
    exact ⟨_, hatom, .name span hN⟩
  | number n span =>
    obtain ⟨span', _, rfl, hnil⟩ := hus.cons rfl
    obtain rfl := hnil.nil
    exact ⟨_, .number n span', .number n⟩
  | text content span =>
    obtain ⟨span', _, rfl, hnil⟩ := hus.cons rfl
    obtain rfl := hnil.nil
    exact ⟨_, .text content span', .text content⟩
  | list opening closing _ ih =>
    obtain ⟨opening', closing', inner, rfl, hinner⟩ := hus.enclosed rfl rfl
    obtain ⟨_, hderives, hitems⟩ := ih hdefs hinner
    exact ⟨_, .list opening' closing' hderives, .list hitems⟩
  | subScript opening closing _ ih =>
    obtain ⟨opening', closing', inner, rfl, hinner⟩ := hus.enclosed rfl rfl
    obtain ⟨_, _, hderives, hfirst, hrest⟩ := ih hdefs hinner
    exact ⟨_, .subScript opening' closing' hderives, .subScript hfirst hrest⟩
  | flippedOperator op place span =>
    obtain ⟨span', ys, rfl, hys⟩ := hus.cons rfl
    obtain ⟨place', zs, rfl, hnil⟩ := hys.cons rfl
    obtain rfl := hnil.nil
    exact ⟨_, .flippedOperator op place' span', .flippedOperator op place place' span span'⟩
  | flipped span hahead harg ih =>
    obtain ⟨span', ys, rfl, hys⟩ := hus.cons rfl
    have hahead' := hswap.noOperatorAhead hahead harg.atom_ne_nil hys
    obtain ⟨_, hderives, hlike⟩ := ih hdefs hys
    exact ⟨_, .flipped span' hahead' hderives, .flipped span span' hlike⟩
  | operator op span _ ih =>
    obtain ⟨span', ys, rfl, hys⟩ := hus.cons rfl
    obtain ⟨_, hderives, harg⟩ := ih hdefs hys
    exact ⟨_, .operator op span' hderives, .operator op span span' harg⟩
  | noItems =>
    obtain rfl := hus.nil
    exact ⟨_, .noItems, .nil⟩
  | lastItem _ ih =>
    simp only [Phrase.definitions, elementsDefinitions, List.append_nil] at hdefs
    obtain ⟨_, hderives, hitem⟩ := ih hdefs hus
    exact ⟨_, .lastItem hderives, .cons hitem .nil⟩
  | item comma _ _ ih ihItems =>
    simp only [Phrase.definitions, elementsDefinitions, List.forall_mem_append] at hdefs
    obtain ⟨comma', front, others, rfl, hfront, hothers⟩ := hus.separated rfl
    obtain ⟨_, hderives, hitem⟩ := ih hdefs.1 hfront
    obtain ⟨_, hderives', hitems⟩ := ihItems hdefs.2 hothers
    exact ⟨_, .item comma' hderives hderives', .cons hitem hitems⟩
  | plain _ ih =>
    obtain ⟨_, hderives, hvalue⟩ := ih hdefs hus
    exact ⟨_, .plain hderives, .atom hvalue⟩
  | definition opening span quoted name doc _ ih =>
    simp only [Phrase.definitions, Head.definitions, List.forall_mem_append, List.forall_mem_singleton] at hdefs
    obtain ⟨opening', ys, rfl, hys⟩ := hus.cons rfl
    obtain ⟨span', zs, rfl, hzs⟩ := hys.cons (hswap.stays name hdefs.2)
    obtain ⟨quoted', inner, rfl, hinner⟩ := hzs.cons rfl
    obtain ⟨_, hderives, hvalue⟩ := ih hdefs.1 hinner
    exact ⟨_, .definition opening' span' quoted' name doc hderives, .definition span span' doc hdefs.2 hvalue⟩
  | noArgs =>
    obtain rfl := hus.nil
    exact ⟨_, .noArgs, .nil⟩
  | arg _ _ ih ihArgs =>
    simp only [Phrase.definitions, argsDefinitions, List.forall_mem_append] at hdefs
    obtain ⟨front, back, rfl, hfront, hback⟩ := hus.append
    obtain ⟨_, hderives, harg⟩ := ih hdefs.1 hfront
    obtain ⟨_, hderives', hargs⟩ := ihArgs hdefs.2 hback
    exact ⟨_, .arg hderives hderives', .cons harg hargs⟩
  | apply _ _ ih ihArgs =>
    simp only [Phrase.definitions, Element.definitions, List.forall_mem_append] at hdefs
    obtain ⟨front, back, rfl, hfront, hback⟩ := hus.append
    obtain ⟨_, hderives, hhead⟩ := ih hdefs.1 hfront
    obtain ⟨_, hderives', hargs⟩ := ihArgs hdefs.2 hback
    exact ⟨_, .apply hderives hderives', .apply hhead hargs⟩
  | andThen semicolon _ _ _ ih ihArgs ihNext =>
    simp only [Phrase.definitions, Element.definitions, List.forall_mem_append] at hdefs
    obtain ⟨semicolon', before, others, rfl, hbefore, hothers⟩ := hus.separated rfl
    obtain ⟨front, back, rfl, hfront, hback⟩ := hbefore.append
    obtain ⟨_, hderives, hhead⟩ := ih hdefs.1 hfront
    obtain ⟨_, hderives', hargs⟩ := ihArgs hdefs.2.1 hback
    obtain ⟨_, hderives'', hnext⟩ := ihNext hdefs.2.2 hothers
    exact ⟨_, .andThen semicolon' hderives hderives' hderives'', .andThen hhead hargs hnext⟩
  | single _ ih =>
    simp only [Phrase.definitions, elementsDefinitions, List.append_nil] at hdefs
    obtain ⟨_, hderives, hfirst⟩ := ih hdefs hus
    exact ⟨_, _, .single hderives, hfirst, .nil⟩
  | comma comma _ _ ih ihRest =>
    have hdefs' := List.forall_mem_append.1 hdefs
    obtain ⟨comma', front, others, rfl, hfront, hothers⟩ := hus.separated rfl
    obtain ⟨_, hderives, hfirst⟩ := ih hdefs'.1 hfront
    obtain ⟨_, _, hderives', hsecond, hrest⟩ := ihRest hdefs'.2 hothers
    exact ⟨_, _, .comma comma' hderives hderives', hfirst, .cons hsecond hrest⟩

end Derivations

end PullScript.Script
