import PullScript.Script.Reader

namespace PullScript.Script

inductive Phrase where
  | atom (atom : Atom)
  | items (items : List Element)
  | head (head : Head)
  | args (args : List Atom)
  | element (element : Element)
  | elements (first : Element) (rest : List Element)

def NoOperatorAhead (ts : List Token) : Prop :=
  ∀ op span rest, ts ≠ ⟨.operator op, span⟩ :: rest

/-- The tokens that the parts of a tree are derived from. An operator right behind a percent sign
belongs to it. -/
inductive Derives : List Token → Phrase → Prop
  | name (text : String) (span : Span) : Derives [⟨.name text, span⟩] (.atom (.name text span))
  | number (n : Float) (span : Span) : Derives [⟨.number n, span⟩] (.atom (.number n))
  | text (content : String) (span : Span) : Derives [⟨.text content, span⟩] (.atom (.text content))
  | list {ts : List Token} {items : List Element} (opening closing : Span) :
    Derives ts (.items items) →
    Derives (⟨.openBrace, opening⟩ :: (ts ++ [⟨.closeBrace, closing⟩])) (.atom (.list items))
  | subScript {ts : List Token} {first : Element} {rest : List Element} (opening closing : Span) :
    Derives ts (.elements first rest) →
    Derives (⟨.openBracket, opening⟩ :: (ts ++ [⟨.closeBracket, closing⟩]))
      (.atom (.subScript first rest))
  | flippedOperator (op : Operator) (place span : Span) :
    Derives [⟨.percent, span⟩, ⟨.operator op, place⟩] (.atom (.flippedOperator op place span))
  | flipped {ts : List Token} {arg : Atom} (span : Span) :
    NoOperatorAhead ts → Derives ts (.atom arg) →
    Derives (⟨.percent, span⟩ :: ts) (.atom (.flipped arg span))
  | operator {ts : List Token} {arg : Atom} (op : Operator) (span : Span) :
    Derives ts (.atom arg) → Derives (⟨.operator op, span⟩ :: ts) (.atom (.operator op arg span))
  | noItems : Derives [] (.items [])
  | lastItem {ts : List Token} {item : Element} :
    Derives ts (.element item) → Derives ts (.items [item])
  | item {ts us : List Token} {item : Element} {items : List Element} (comma : Span) :
    Derives ts (.element item) → Derives us (.items items) →
    Derives (ts ++ ⟨.comma, comma⟩ :: us) (.items (item :: items))
  | plain {ts : List Token} {value : Atom} :
    Derives ts (.atom value) → Derives ts (.head (.atom value))
  | definition {ts : List Token} {value : Atom} (opening span quoted : Span) (name doc : String) :
    Derives ts (.atom value) →
    Derives (⟨.definition, opening⟩ :: ⟨.name name, span⟩ :: ⟨.text doc, quoted⟩ :: ts)
      (.head (.definition name span doc value))
  | noArgs : Derives [] (.args [])
  | arg {ts us : List Token} {arg : Atom} {args : List Atom} :
    Derives ts (.atom arg) → Derives us (.args args) → Derives (ts ++ us) (.args (arg :: args))
  | apply {ts us : List Token} {head : Head} {args : List Atom} :
    Derives ts (.head head) → Derives us (.args args) →
    Derives (ts ++ us) (.element (.apply head args))
  | andThen {ts us vs : List Token} {head : Head} {args : List Atom} {next : Element}
      (semicolon : Span) :
    Derives ts (.head head) → Derives us (.args args) → Derives vs (.element next) →
    Derives (ts ++ us ++ ⟨.semicolon, semicolon⟩ :: vs) (.element (.andThen head args next))
  | single {ts : List Token} {first : Element} :
    Derives ts (.element first) → Derives ts (.elements first [])
  | comma {ts us : List Token} {first second : Element} {rest : List Element} (comma : Span) :
    Derives ts (.element first) → Derives us (.elements second rest) →
    Derives (ts ++ ⟨.comma, comma⟩ :: us) (.elements first (second :: rest))

/-- What the first token of a part of a tree is not. Only lists of items and of atoms may have no
tokens. -/
def Phrase.StartsWith : Phrase → List Token → Prop
  | .atom _, ts => ∃ t us, ts = t :: us ∧ t.kind.endsElement = false ∧ t.kind ≠ .definition
  | .head _, ts | .element _, ts | .elements .., ts =>
    ∃ t us, ts = t :: us ∧ t.kind.endsElement = false
  | .items _, _ | .args _, _ => True

theorem Derives.startsWith {ts : List Token} {phrase : Phrase} (h : Derives ts phrase) :
    phrase.StartsWith ts := by
  induction h with
  | name | number | text | list | subScript | flippedOperator | flipped | operator =>
    exact ⟨_, _, rfl, rfl, by simp⟩
  | noItems | lastItem | item | noArgs | arg => trivial
  | plain _ ih =>
    obtain ⟨t, us, rfl, hends, -⟩ := ih
    exact ⟨t, us, rfl, hends⟩
  | definition => exact ⟨_, _, rfl, rfl⟩
  | single _ ih => exact ih
  | apply _ _ ih =>
    obtain ⟨t, us, rfl, hends⟩ := ih
    exact ⟨t, _, rfl, hends⟩
  | andThen _ _ _ _ ih =>
    obtain ⟨t, us, rfl, hends⟩ := ih
    exact ⟨t, _, rfl, hends⟩
  | comma _ _ _ ih =>
    obtain ⟨t, us, rfl, hends⟩ := ih
    exact ⟨t, _, rfl, hends⟩

section Reading

variable {stop : Span} {fuel : Nat}

variable {t : Token} {rest us : List Token}

def EndsBefore (kinds : List TokenKind) (rest : List Token) : Prop :=
  ∀ t ∈ rest.head?, t.kind ∈ kinds

theorem endsBefore_nil (kinds : List TokenKind) : EndsBefore kinds [] := by
  intro t ht
  simp at ht

theorem endsBefore_cons {kinds : List TokenKind} : EndsBefore kinds (t :: rest) ↔ t.kind ∈ kinds := by
  simp [EndsBefore]

theorem EndsBefore.mono {kinds kinds' : List TokenKind} (h : EndsBefore kinds rest) (hsub : kinds ⊆ kinds') :
    EndsBefore kinds' rest :=
  fun t ht => hsub (h t ht)

theorem readAtom_openBracket (opening : Span) (ht : t.kind.endsElement = false) :
    readAtom stop (fuel + 1) (⟨.openBracket, opening⟩ :: t :: us) =
      match readElements stop fuel (t :: us) with
      | (first, others, ahead) =>
        match ahead with
        | ⟨.closeBracket, _⟩ :: rest => (.subScript first others, rest)
        | _ => (.unclosed first others (unexpected stop .commaOrEndOfSubScript ahead), []) := by
  obtain ⟨kind, span⟩ := t
  cases kind with
  | closeBracket => cases ht
  | _ => rfl

theorem readAtom_percent {ts : List Token} (span : Span) (hts : NoOperatorAhead ts) :
    readAtom stop (fuel + 1) (⟨.percent, span⟩ :: ts) =
      match readAtom stop fuel ts with
      | (arg, ahead) => (.flipped arg span, ahead) := by
  cases ts with
  | nil => rfl
  | cons t us =>
    obtain ⟨kind, place⟩ := t
    cases kind with
    | operator op => exact absurd rfl (hts op place us)
    | _ => rfl

theorem readHead_atom (ht : t.kind ≠ .definition) :
    readHead stop (fuel + 1) (t :: us) =
      match readAtom stop fuel (t :: us) with
      | (value, ahead) => (.atom value, ahead) := by
  obtain ⟨kind, span⟩ := t
  cases kind with
  | definition => exact absurd rfl ht
  | _ => rfl

theorem readItems_item (ht : t.kind.endsElement = false) :
    readItems stop (fuel + 1) (t :: us) =
      match readElement stop fuel (t :: us) with
      | (item, ahead) =>
        match ahead with
        | ⟨.comma, _⟩ :: rest =>
          match readItems stop fuel rest with
          | (items, ahead) => (item :: items, ahead)
        | ⟨.closeBrace, _⟩ :: rest => ([item], rest)
        | _ => ([item, .broken (unexpected stop .commaOrClosingBrace ahead)], []) := by
  obtain ⟨kind, span⟩ := t
  cases kind with
  | closeBrace => cases ht
  | _ => rfl

theorem peek_endsElement (h : EndsBefore [.comma, .semicolon, .closeBrace, .closeBracket] rest) :
    (peek stop rest).kind.endsElement = true := by
  cases rest with
  | nil => rfl
  | cons t us =>
    have hkind := endsBefore_cons.1 h
    simp only [List.mem_cons, List.not_mem_nil, or_false] at hkind
    obtain hkind | hkind | hkind | hkind := hkind <;> simp [peek, hkind, TokenKind.endsElement]

/-- Reading the tokens of a part of a tree gives the part and stops behind it, whatever follows that
cannot go on with it. Five steps of fuel for each token are enough. -/
def ReadsBack (stop : Span) (ts : List Token) : Phrase → Prop
  | .atom atom => ∀ fuel rest, 5 * ts.length ≤ fuel + 4 →
      readAtom stop fuel (ts ++ rest) = (atom, rest)
  | .items items => ∀ fuel closing rest, 5 * ts.length + 4 ≤ fuel →
      readItems stop fuel (ts ++ ⟨.closeBrace, closing⟩ :: rest) = (items, rest)
  | .head head => ∀ fuel rest, 5 * ts.length ≤ fuel + 3 →
      readHead stop fuel (ts ++ rest) = (head, rest)
  | .args args => ∀ fuel rest, 5 * ts.length + 1 ≤ fuel →
      EndsBefore [.comma, .semicolon, .closeBrace, .closeBracket] rest →
      readArgs stop fuel (ts ++ rest) = (args, rest)
  | .element element => ∀ fuel rest, 5 * ts.length ≤ fuel + 2 →
      EndsBefore [.comma, .closeBrace, .closeBracket] rest →
      readElement stop fuel (ts ++ rest) = (element, rest)
  | .elements first others => ∀ fuel rest, 5 * ts.length ≤ fuel + 1 →
      EndsBefore [.closeBracket] rest →
      readElements stop fuel (ts ++ rest) = (first, others, rest)

/-- Every part of a tree is read back from tokens that it is derived from. By induction on the derivation; the
first token of a part says which way the reader goes. -/
theorem Derives.readsBack (stop : Span) {ts : List Token} {phrase : Phrase} (h : Derives ts phrase) :
    ReadsBack stop ts phrase := by
  induction h with
  | name | number | text | flippedOperator =>
    intro fuel rest hfuel
    simp only [List.length_cons, List.length_nil] at hfuel
    obtain _ | fuel := fuel
    · omega
    rfl
  | list opening closing _ ih =>
    intro fuel rest hfuel
    simp only [List.length_cons, List.length_append, List.length_nil] at hfuel
    obtain _ | fuel := fuel
    · omega
    have hread := ih fuel closing rest (by omega)
    simp [readAtom, hread]
  | subScript opening closing h ih =>
    intro fuel rest hfuel
    simp only [List.length_cons, List.length_append, List.length_nil] at hfuel
    obtain _ | fuel := fuel
    · omega
    have hread := ih fuel (⟨.closeBracket, closing⟩ :: rest) (by omega) (endsBefore_cons.2 (by simp))
    obtain ⟨t, us, rfl, ht⟩ := h.startsWith
    simp only [List.cons_append, List.append_assoc, List.nil_append] at hread ⊢
    rw [readAtom_openBracket opening ht, hread]
  | flipped span hahead h ih =>
    intro fuel rest hfuel
    rw [List.length_cons] at hfuel
    obtain _ | fuel := fuel
    · omega
    have hread := ih fuel rest (by omega)
    obtain ⟨t, us, rfl, -⟩ := h.startsWith
    have hahead' : NoOperatorAhead (t :: us ++ rest) := by
      intro op place rest' heq
      obtain ⟨rfl, -⟩ := List.cons.inj heq
      exact hahead op place us rfl
    rw [List.cons_append, readAtom_percent span hahead', hread]
  | operator op span _ ih =>
    intro fuel rest hfuel
    rw [List.length_cons] at hfuel
    obtain _ | fuel := fuel
    · omega
    have hread := ih fuel rest (by omega)
    simp [readAtom, hread]
  | noItems =>
    intro fuel closing rest hfuel
    obtain _ | fuel := fuel
    · omega
    rfl
  | lastItem h ih =>
    intro fuel closing rest hfuel
    obtain _ | fuel := fuel
    · omega
    have hread := ih fuel (⟨.closeBrace, closing⟩ :: rest) (by omega) (endsBefore_cons.2 (by simp))
    obtain ⟨t, us, rfl, ht⟩ := h.startsWith
    simp only [List.cons_append] at hread ⊢
    rw [readItems_item ht, hread]
  | @item _ us _ _ comma h _ ih ihItems =>
    intro fuel closing rest hfuel
    simp only [List.length_append, List.length_cons] at hfuel
    obtain _ | fuel := fuel
    · omega
    have hread := ih fuel (⟨.comma, comma⟩ :: (us ++ ⟨.closeBrace, closing⟩ :: rest)) (by omega)
      (endsBefore_cons.2 (by simp))
    have hreadItems := ihItems fuel closing rest (by omega)
    obtain ⟨t, vs, rfl, ht⟩ := h.startsWith
    simp only [List.cons_append, List.append_assoc] at hread ⊢
    rw [readItems_item ht, hread]
    simp only [hreadItems]
  | plain h ih =>
    intro fuel rest hfuel
    obtain ⟨t, us, rfl, -, ht⟩ := h.startsWith
    have hlength := List.length_cons ▸ hfuel
    obtain _ | fuel := fuel
    · omega
    have hread := ih fuel rest (by omega)
    rw [List.cons_append] at hread ⊢
    rw [readHead_atom ht, hread]
  | definition opening span quoted name doc _ ih =>
    intro fuel rest hfuel
    simp only [List.length_cons] at hfuel
    obtain _ | fuel := fuel
    · omega
    have hread := ih fuel rest (by omega)
    simp [readHead, hread]
  | noArgs =>
    intro fuel rest hfuel hrest
    obtain _ | fuel := fuel
    · omega
    simp [readArgs, peek_endsElement hrest]
  | @arg _ us _ _ h _ ih ihArgs =>
    intro fuel rest hfuel hrest
    obtain ⟨t, vs, rfl, ht, -⟩ := h.startsWith
    simp only [List.length_append, List.length_cons] at hfuel
    obtain _ | fuel := fuel
    · omega
    have hread := ih fuel (us ++ rest) (by simp only [List.length_cons]; omega)
    have hreadArgs := ihArgs fuel rest (by omega) hrest
    simp only [List.cons_append, List.append_assoc] at hread ⊢
    simp [readArgs, peek, ht, hread, hreadArgs]
  | @apply _ us _ _ h _ ih ihArgs =>
    intro fuel rest hfuel hrest
    obtain ⟨t, vs, rfl, -⟩ := h.startsWith
    simp only [List.length_append, List.length_cons] at hfuel
    obtain _ | fuel := fuel
    · omega
    have hread := ih fuel (us ++ rest) (by simp only [List.length_cons]; omega)
    have hreadArgs := ihArgs fuel rest (by omega) (hrest.mono (by simp))
    rw [List.append_assoc, readElement]
    simp only [hread, hreadArgs]
    cases rest with
    | nil => rfl
    | cons t' rest =>
      obtain ⟨kind, span⟩ := t'
      cases kind with
      | semicolon => simp [endsBefore_cons] at hrest
      | _ => rfl
  | @andThen _ us vs _ _ _ semicolon h _ _ ih ihArgs ihNext =>
    intro fuel rest hfuel hrest
    obtain ⟨t, ws, rfl, -⟩ := h.startsWith
    simp only [List.length_append, List.length_cons] at hfuel
    obtain _ | fuel := fuel
    · omega
    have hread := ih fuel (us ++ ⟨.semicolon, semicolon⟩ :: (vs ++ rest)) (by simp only [List.length_cons]; omega)
    have hreadArgs := ihArgs fuel (⟨.semicolon, semicolon⟩ :: (vs ++ rest)) (by omega) (endsBefore_cons.2 (by simp))
    have hreadNext := ihNext fuel rest (by omega) hrest
    simp only [List.append_assoc, List.cons_append] at hread hreadArgs ⊢
    rw [readElement]
    simp only [hread, hreadArgs, hreadNext]
  | single h ih =>
    intro fuel rest hfuel hrest
    obtain ⟨t, us, rfl, -⟩ := h.startsWith
    have hlength := List.length_cons ▸ hfuel
    obtain _ | fuel := fuel
    · omega
    have hread := ih fuel rest (by omega) (hrest.mono (by simp))
    rw [readElements]
    simp only [hread]
    cases rest with
    | nil => rfl
    | cons t' rest =>
      obtain ⟨kind, span⟩ := t'
      cases kind with
      | comma => simp [endsBefore_cons] at hrest
      | _ => rfl
  | @comma _ us _ _ _ comma _ _ ih ihOthers =>
    intro fuel rest hfuel hrest
    simp only [List.length_append, List.length_cons] at hfuel
    obtain _ | fuel := fuel
    · omega
    have hread := ih fuel (⟨.comma, comma⟩ :: (us ++ rest)) (by omega) (endsBefore_cons.2 (by simp))
    have hreadOthers := ihOthers fuel rest (by omega) hrest
    simp only [List.append_assoc, List.cons_append] at hread ⊢
    rw [readElements]
    simp only [hread, hreadOthers]

end Reading

theorem Derives.ofTokens {tokens : List Token} {first : Element} {rest : List Element}
    (h : Derives (beforeStop tokens) (.elements first rest)) : ofTokens tokens = ⟨first, rest, none⟩ := by
  have hread := h.readsBack (stopSpan tokens) (5 * (beforeStop tokens).length + 5) [] (by omega)
    (endsBefore_nil _)
  rw [List.append_nil] at hread
  simp only [Script.ofTokens, hread, breakBehind]

end PullScript.Script
