import PullScript.Proofs.Outcome
import PullScript.Ty.Parser

namespace PullScript.Ty

variable {kinds : List TokenKind} {t : Token} {kind : TokenKind} {wanted : Wanted} {fuel : Nat} {phrase : Phrase}
  {ts : List Token}

variable {rest ahead : List Token} {size : Nat} {ty : Ty} {tys : List Ty}

inductive Phrase where
  | type
  | starred
  | part
  | others

@[reducible] def Phrase.Meaning : Phrase → Type
  | .others => List Ty
  | _ => Ty

def Phrase.types : (phrase : Phrase) → phrase.Meaning → List Ty
  | .type, ty => [ty]
  | .starred, ty => [ty]
  | .part, ty => [ty]
  | .others, tys => tys

inductive Derivation : Phrase → Type
  | name (t : Token) (ht : t.kind = .name) : Derivation .part
  | num (t : Token) (ht : t.kind = .typeName) (htext : t.text = ['N', 'u', 'm']) : Derivation .part
  | str (t : Token) (ht : t.kind = .typeName) (htext : t.text = ['S', 't', 'r']) : Derivation .part
  | group (opening : Token) (inner : Derivation .type) (closing : Token)
      (hopening : opening.kind = .openParen) (hclosing : closing.kind = .closeParen) :
      Derivation .part
  | tuple (opening : Token) (first : Derivation .type) (comma : Token) (second : Derivation .type)
      (others : Derivation .others) (closing : Token) (hopening : opening.kind = .openParen)
      (hcomma : comma.kind = .comma) (hclosing : closing.kind = .closeParen) : Derivation .part
  | list (opening : Token) (first : Derivation .type) (others : Derivation .others)
      (closing : Token) (hopening : opening.kind = .openBracket)
      (hclosing : closing.kind = .closeBracket) : Derivation .part
  | bare (part : Derivation .part) : Derivation .starred
  | starred (part : Derivation .part) (star : Token) (hstar : star.kind = .star) :
      Derivation .starred
  | plain (only : Derivation .starred) : Derivation .type
  | arrow (arg : Derivation .starred) (sign : Token) (result : Derivation .type)
      (hsign : sign.kind = .arrow) : Derivation .type
  | noOthers : Derivation .others
  | other (comma : Token) (first : Derivation .type) (others : Derivation .others)
      (hcomma : comma.kind = .comma) : Derivation .others

/-- What a star makes of a type: texts, lists and tuples become endless, and nothing else changes. -/
def starred : Ty → Ty
  | .str _ => .str true
  | .lst elements _ tuple => .lst elements true tuple
  | .unknown name => .unknown name
  | .num => .num
  | .arrow arg result => .arrow arg result

theorem withEndless_true (ty : Ty) : ty.withEndless true = ty.starred := by
  cases ty <;> rfl

namespace Derivation

def tokens : {phrase : Phrase} → Derivation phrase → List Token
  | _, name t _ => [t]
  | _, num t _ _ => [t]
  | _, str t _ _ => [t]
  | _, group opening inner closing _ _ => opening :: (inner.tokens ++ [closing])
  | _, tuple opening first comma second others closing _ _ _ =>
    opening :: (first.tokens ++ comma :: (second.tokens ++ (others.tokens ++ [closing])))
  | _, list opening first others closing _ _ =>
    opening :: (first.tokens ++ (others.tokens ++ [closing]))
  | _, bare part => part.tokens
  | _, starred part star _ => part.tokens ++ [star]
  | _, plain only => only.tokens
  | _, arrow arg sign result _ => arg.tokens ++ sign :: result.tokens
  | _, noOthers => []
  | _, other comma first others _ => comma :: (first.tokens ++ others.tokens)

def meaning : {phrase : Phrase} → Derivation phrase → phrase.Meaning
  | _, name t _ => Ty.unknown (String.ofList t.text)
  | _, num _ _ _ => Ty.num
  | _, str _ _ _ => Ty.str false
  | _, group _ inner _ _ _ => inner.meaning
  | _, tuple _ first _ second others _ _ _ _ =>
    Ty.lst (first.meaning :: second.meaning :: others.meaning) false true
  | _, list _ first others _ _ _ => Ty.lst (first.meaning :: others.meaning) false false
  | _, bare part => part.meaning
  | _, starred part _ _ => Ty.starred part.meaning
  | _, plain only => only.meaning
  | _, arrow arg _ result _ => Ty.arrow arg.meaning result.meaning
  | _, noOthers => []
  | _, other _ first others _ => first.meaning :: others.meaning

end Derivation

def NotAhead (kinds : List TokenKind) (ahead : List Token) : Prop :=
  ∀ t rest, ahead = t :: rest → t.kind ∉ kinds

theorem notAhead_nil (kinds : List TokenKind) : NotAhead kinds [] := by
  intro t rest h
  cases h

theorem notAhead_cons : NotAhead kinds (t :: rest) ↔ t.kind ∉ kinds := by
  constructor
  · intro h
    exact h t rest rfl
  · intro h t' rest' heq
    cases heq
    exact h

theorem NotAhead.of_kind {kind : TokenKind} (h : t.kind = kind) (hkind : kind ∉ kinds := by decide) :
    NotAhead kinds (t :: rest) :=
  notAhead_cons.2 (h ▸ hkind)

/-- The kinds of tokens that go on with a phrase, so that it does not end before them. -/
def Phrase.goesOn : Phrase → List TokenKind
  | .type => [.star, .arrow]
  | .starred => [.star]
  | .part => []
  | .others => [.star, .arrow, .comma]

theorem notAhead_none (ahead : List Token) : NotAhead (Phrase.goesOn .part) ahead := by
  simp [NotAhead, Phrase.goesOn]

/-- Reading the tokens of a phrase gives what they mean and stops behind them, whatever follows that
does not go on with the phrase. Two steps of fuel for each token are enough. -/
def Reads (size : Nat) : (phrase : Phrase) → List Token → phrase.Meaning → Prop
  | .type, ts, ty => ∀ fuel rest, 2 * ts.length ≤ fuel → NotAhead (Phrase.goesOn .type) rest →
      readType size fuel (ts ++ rest) = .ok (ty, rest)
  | .starred, ts, ty => ∀ fuel rest, 2 * ts.length ≤ fuel + 1 → NotAhead (Phrase.goesOn .starred) rest →
      ∃ part ahead, readPart size fuel (ts ++ rest) = .ok (part, ahead) ∧ takeStar part ahead = (ty, rest)
  | .part, ts, ty => ∀ fuel rest, 2 * ts.length ≤ fuel + 1 → readPart size fuel (ts ++ rest) = .ok (ty, rest)
  | .others, ts, tys => ∀ fuel rest, 2 * ts.length ≤ fuel → NotAhead (Phrase.goesOn .others) rest →
      readOthers size fuel (ts ++ rest) = .ok (tys, rest)

theorem expect_cons (h : t.kind = kind) : expect size kind wanted (t :: rest) = .ok rest := by
  simp [expect, h]

theorem takeStar_of_notAhead (h : NotAhead [.star] ahead) : takeStar ty ahead = (ty, ahead) := by
  cases ahead with
  | nil => rfl
  | cons t rest =>
    have hkind : t.kind ≠ .star := by simpa using notAhead_cons.mp h
    simp [takeStar, hkind]

theorem readOthers_of_notAhead (h : NotAhead [.comma] ahead) : readOthers size fuel ahead = .ok ([], ahead) := by
  cases fuel with
  | zero => rw [readOthers]
  | succ fuel =>
    cases ahead with
    | nil => rw [readOthers]
    | cons t rest =>
      have hkind : t.kind ≠ .comma := by simpa using notAhead_cons.mp h
      rw [readOthers, if_neg hkind]

theorem NotAhead.mono {kinds' : List TokenKind} (h : NotAhead kinds ahead) (hsub : kinds' ⊆ kinds) :
    NotAhead kinds' ahead :=
  fun t rest heq hmem => h t rest heq (hsub hmem)

namespace Derivation

theorem notAhead_others (others : Derivation .others) (hrest : NotAhead (Phrase.goesOn .others) rest) :
    NotAhead (Phrase.goesOn .type) (others.tokens ++ rest) := by
  cases others with
  | noOthers => exact hrest.mono (by simp [Phrase.goesOn])
  | other comma _ _ hcomma => exact .of_kind hcomma

theorem length_pos (d : Derivation phrase) (hphrase : phrase ≠ .others) : 0 < d.tokens.length := by
  induction d with
  | name | num | str | group | tuple | list | starred => simp [tokens]
  | arrow =>
    rw [tokens, List.length_append, List.length_cons]
    omega
  | bare _ ih | plain _ ih => exact ih (by simp)
  | noOthers | other => exact absurd rfl hphrase

theorem reads (size : Nat) (d : Derivation phrase) : Reads size phrase d.tokens d.meaning := by
  induction d with
  | name t ht =>
    intro fuel rest _
    rw [tokens, List.singleton_append, readPart.eq_def]
    simp only [ht, meaning]
  | num t ht htext =>
    intro fuel rest _
    rw [tokens, List.singleton_append, readPart.eq_def]
    simp only [ht, htext, if_true, meaning]
  | str t ht htext =>
    intro fuel rest _
    rw [tokens, List.singleton_append, readPart.eq_def]
    simp [ht, htext, meaning]
  | group opening inner closing hopening hclosing ih =>
    intro fuel rest hfuel
    simp only [tokens, List.length_cons, List.length_append] at hfuel
    obtain _ | fuel := fuel
    · omega
    have hfirst := ih fuel (closing :: rest) (by omega) (.of_kind hclosing)
    have hothers : readOthers size fuel (closing :: rest) = .ok ([], closing :: rest) :=
      readOthers_of_notAhead (.of_kind hclosing)
    rw [readPart.eq_def]
    simp [tokens, meaning, hopening, hfirst, hothers, expect_cons hclosing, bind, Except.bind, pure, Except.pure]
  | tuple opening first comma second others closing hopening hcomma hclosing ih ihSecond ihOthers =>
    intro fuel rest hfuel
    simp only [tokens, List.length_cons, List.length_append] at hfuel
    obtain _ | _ | fuel := fuel
    · omega
    · omega
    have hbehind : NotAhead (Phrase.goesOn .others) (closing :: rest) := .of_kind hclosing
    have hfirst := ih (fuel + 1) (comma :: (second.tokens ++ (others.tokens ++ closing :: rest))) (by omega)
      (.of_kind hcomma)
    have hsecond := ihSecond fuel (others.tokens ++ closing :: rest) (by omega) (others.notAhead_others hbehind)
    have hothers := ihOthers fuel (closing :: rest) (by omega) hbehind
    rw [readPart.eq_def]
    simp [tokens, meaning, readOthers, hopening, hfirst, hcomma, hsecond, hothers, expect_cons hclosing, bind,
      Except.bind, pure, Except.pure]
  | list opening first others closing hopening hclosing ih ihOthers =>
    intro fuel rest hfuel
    simp only [tokens, List.length_cons, List.length_append] at hfuel
    obtain _ | fuel := fuel
    · omega
    have hbehind : NotAhead (Phrase.goesOn .others) (closing :: rest) := .of_kind hclosing
    have hfirst := ih fuel (others.tokens ++ closing :: rest) (by omega) (others.notAhead_others hbehind)
    have hothers := ihOthers fuel (closing :: rest) (by omega) hbehind
    rw [readPart.eq_def]
    simp [tokens, meaning, hopening, hfirst, hothers, expect_cons hclosing, listOf, bind, Except.bind, pure,
      Except.pure]
  | bare part ih =>
    exact fun fuel rest hfuel hrest => ⟨_, rest, ih fuel rest hfuel, takeStar_of_notAhead hrest⟩
  | starred part star hstar ih =>
    intro fuel rest hfuel _
    refine ⟨part.meaning, star :: rest, ?_, ?_⟩
    · simp only [tokens, List.length_append] at hfuel
      simpa [tokens] using ih fuel (star :: rest) (by omega)
    · simp [takeStar, hstar, meaning, withEndless_true]
  | plain only ih =>
    intro fuel rest hfuel hrest
    have hpos := only.length_pos (by simp)
    simp only [tokens] at hfuel
    obtain _ | fuel := fuel
    · omega
    obtain ⟨part, ahead, hpart, hstar⟩ := ih fuel rest (by omega) (hrest.mono (by simp [Phrase.goesOn]))
    rw [readType, tokens, hpart]
    simp only [bind, Except.bind, hstar]
    cases rest with
    | nil => rfl
    | cons t rest =>
      have hkind : t.kind ≠ .arrow := by
        have hnot := notAhead_cons.mp hrest
        simp_all [Phrase.goesOn]
      simp [hkind, pure, Except.pure, meaning]
  | arrow arg sign result hsign ihArg ihResult =>
    intro fuel rest hfuel hrest
    have hpos := arg.length_pos (by simp)
    simp only [tokens, List.length_cons, List.length_append] at hfuel
    obtain _ | fuel := fuel
    · omega
    obtain ⟨part, ahead, hpart, hstar⟩ := ihArg fuel (sign :: (result.tokens ++ rest)) (by omega) (.of_kind hsign)
    have hresult := ihResult fuel rest (by omega) hrest
    rw [readType, tokens, List.append_assoc, List.cons_append, hpart]
    simp [bind, Except.bind, hstar, hsign, hresult, pure, Except.pure, meaning]
  | noOthers =>
    intro fuel rest _ hrest
    exact readOthers_of_notAhead (hrest.mono (by simp [Phrase.goesOn]))
  | other comma first others hcomma ih ihOthers =>
    intro fuel rest hfuel hrest
    simp only [tokens, List.length_cons, List.length_append] at hfuel
    obtain _ | fuel := fuel
    · omega
    have hfirst := ih fuel (others.tokens ++ rest) (by omega) (others.notAhead_others hrest)
    have hothers := ihOthers fuel rest (by omega) hrest
    simp [tokens, meaning, readOthers, hcomma, hfirst, hothers, bind, Except.bind, pure, Except.pure]

end Derivation

/-- A reader gives only what a phrase in front means, and hands on the tokens behind them. -/
def Sound (phrase : Phrase) (ahead : List Token) (meant : phrase.Meaning) (rest : List Token) : Prop :=
  ∃ d : Derivation phrase, ahead = d.tokens ++ rest ∧ d.meaning = meant

theorem expect_eq_ok (h : expect size kind wanted ahead = .ok rest) : ∃ t, t.kind = kind ∧ ahead = t :: rest := by
  cases ahead with
  | nil => simp [expect, expected] at h
  | cons t others =>
    by_cases hkind : t.kind = kind
    · rw [expect_cons hkind] at h
      cases h
      exact ⟨t, hkind, rfl⟩
    · simp [expect, expected, hkind] at h

theorem readPart_sound
    (htype : ∀ n, fuel = n + 1 → ∀ ahead ty rest, readType size n ahead = .ok (ty, rest) → Sound .type ahead ty rest)
    (hothers : ∀ n, fuel = n + 1 → ∀ ahead tys rest, readOthers size n ahead = .ok (tys, rest) →
      Sound .others ahead tys rest)
    (h : readPart size fuel ahead = .ok (ty, rest)) : Sound .part ahead ty rest := by
  rw [readPart.eq_def] at h
  cases ahead with
  | nil => simp [expected] at h
  | cons t ahead =>
    simp only at h
    split at h
    case h_1 hkind =>
      cases h
      exact ⟨.name t hkind, rfl, rfl⟩
    case h_2 hkind =>
      split at h
      · cases h
        exact ⟨.num t hkind ‹_›, rfl, rfl⟩
      · split at h
        · cases h
          exact ⟨.str t hkind ‹_›, rfl, rfl⟩
        · simp [expected] at h
    case h_3 hkind =>
      cases fuel with
      | zero => simp [expected] at h
      | succ fuel =>
        obtain ⟨⟨first, ahead₁⟩, hfirst, h⟩ := bind_ok_iff.mp h
        obtain ⟨⟨others, ahead₂⟩, hrest, h⟩ := bind_ok_iff.mp h
        obtain ⟨inner, rfl, rfl⟩ := htype fuel rfl _ _ _ hfirst
        obtain ⟨behind, rfl, rfl⟩ := hothers fuel rfl _ _ _ hrest
        -- a comma makes it a tuple
        cases behind with
        | noOthers =>
          obtain ⟨_, hexpect, h⟩ := bind_ok_iff.mp h
          cases h
          obtain ⟨closing, hclosing, rfl⟩ := expect_eq_ok hexpect
          exact ⟨.group t inner closing hkind hclosing, by simp [Derivation.tokens], rfl⟩
        | other comma second others hcomma =>
          obtain ⟨_, hexpect, h⟩ := bind_ok_iff.mp h
          cases h
          obtain ⟨closing, hclosing, rfl⟩ := expect_eq_ok hexpect
          exact ⟨.tuple t inner comma second others closing hkind hcomma hclosing, by simp [Derivation.tokens], rfl⟩
    case h_4 hkind =>
      cases fuel with
      | zero => simp [expected] at h
      | succ fuel =>
        obtain ⟨⟨first, ahead₁⟩, hfirst, h⟩ := bind_ok_iff.mp h
        obtain ⟨⟨others, ahead₂⟩, hrest, h⟩ := bind_ok_iff.mp h
        obtain ⟨_, hexpect, h⟩ := bind_ok_iff.mp h
        cases h
        obtain ⟨inner, rfl, rfl⟩ := htype fuel rfl _ _ _ hfirst
        obtain ⟨behind, rfl, rfl⟩ := hothers fuel rfl _ _ _ hrest
        obtain ⟨closing, hclosing, rfl⟩ := expect_eq_ok hexpect
        exact ⟨.list t inner behind closing hkind hclosing, by simp [Derivation.tokens], rfl⟩
    case h_5 => simp [expected] at h

theorem takeStar_sound {ahead₁ : List Token} {part : Ty} (hpart : Sound .part ahead part ahead₁)
    (h : takeStar part ahead₁ = (ty, rest)) : Sound .starred ahead ty rest := by
  obtain ⟨d, rfl, rfl⟩ := hpart
  cases ahead₁ with
  | nil =>
    cases h
    exact ⟨.bare d, rfl, rfl⟩
  | cons t ahead₁ =>
    by_cases hstar : t.kind = .star
    · simp only [takeStar, hstar, if_true, Prod.mk.injEq] at h
      obtain ⟨rfl, rfl⟩ := h
      exact ⟨.starred d t hstar, by simp [Derivation.tokens], (withEndless_true _).symm⟩
    · simp only [takeStar, hstar, if_false, Prod.mk.injEq] at h
      obtain ⟨rfl, rfl⟩ := h
      exact ⟨.bare d, rfl, rfl⟩

theorem read_sound (size fuel : Nat) :
    (∀ ahead ty rest, readType size fuel ahead = .ok (ty, rest) → Sound .type ahead ty rest) ∧
    (∀ ahead ty rest, readPart size fuel ahead = .ok (ty, rest) → Sound .part ahead ty rest) ∧
    (∀ ahead tys rest, readOthers size fuel ahead = .ok (tys, rest) →
      Sound .others ahead tys rest) := by
  induction fuel with
  | zero =>
    refine ⟨fun ahead ty rest h => ?_, fun ahead ty rest h => ?_, fun ahead tys rest h => ?_⟩
    · simp [readType, expected] at h
    · exact readPart_sound (by simp) (by simp) h
    · rw [readOthers] at h
      cases h
      exact ⟨.noOthers, rfl, rfl⟩
  | succ fuel ih =>
    obtain ⟨ihType, ihPart, ihOthers⟩ := ih
    refine ⟨fun ahead ty rest h => ?_, fun ahead ty rest h => ?_, fun ahead tys rest h => ?_⟩
    · rw [readType] at h
      obtain ⟨⟨part, ahead₁⟩, hpart, hbehind⟩ := bind_ok_iff.mp h
      rcases hstar : takeStar part ahead₁ with ⟨arg, ahead₂⟩
      obtain ⟨d, rfl, rfl⟩ := takeStar_sound (ihPart _ _ _ hpart) hstar
      simp only [hstar] at hbehind
      split at hbehind
      next t behind =>
        split at hbehind
        · obtain ⟨⟨result, ahead₃⟩, hresult, hbehind⟩ := bind_ok_iff.mp hbehind
          cases hbehind
          obtain ⟨e, rfl, rfl⟩ := ihType _ _ _ hresult
          exact ⟨.arrow d t e ‹_›, by simp [Derivation.tokens], rfl⟩
        · cases hbehind
          exact ⟨.plain d, rfl, rfl⟩
      next =>
        cases hbehind
        exact ⟨.plain d, rfl, rfl⟩
    · exact readPart_sound (fun n hn => by cases hn; exact ihType)
        (fun n hn => by cases hn; exact ihOthers) h
    · cases ahead with
      | nil =>
        rw [readOthers] at h
        cases h
        exact ⟨.noOthers, rfl, rfl⟩
      | cons t ahead =>
        rw [readOthers] at h
        split at h
        · obtain ⟨⟨ty, ahead₁⟩, hty, h⟩ := bind_ok_iff.mp h
          obtain ⟨⟨others, ahead₂⟩, hothers, h⟩ := bind_ok_iff.mp h
          cases h
          obtain ⟨d, rfl, rfl⟩ := ihType _ _ _ hty
          obtain ⟨e, rfl, rfl⟩ := ihOthers _ _ _ hothers
          exact ⟨.other t d e ‹_›, by simp [Derivation.tokens], rfl⟩
        · cases h
          exact ⟨.noOthers, rfl, rfl⟩

end PullScript.Ty
