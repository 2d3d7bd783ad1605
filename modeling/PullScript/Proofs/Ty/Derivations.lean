import PullScript.Proofs.Ty.RoundTrip

namespace PullScript.Ty

namespace Derivation

/-- Where two derivations start with the same tokens and neither is gone on with, they are the same,
and so is what is behind them. -/
theorem unambiguous {phrase : Phrase} (d d' : Derivation phrase) {rest rest' : List Token}
    (h : d.tokens ++ rest = d'.tokens ++ rest') (hrest : NotAhead phrase.goesOn rest)
    (hrest' : NotAhead phrase.goesOn rest') : d = d' ∧ rest = rest' := by
  induction d generalizing rest rest' with
  | name t ht =>
    cases d' with
    | name t' ht' => simpa [tokens] using h
    | _ => grind [tokens]
  | num t ht htext =>
    cases d' with
    | num t' ht' htext' => simpa [tokens] using h
    | _ => grind [tokens]
  | str t ht htext =>
    cases d' with
    | str t' ht' htext' => simpa [tokens] using h
    | _ => grind [tokens]
  | group opening inner closing hopening hclosing ih =>
    cases d' with
    | group opening' inner' closing' hopening' hclosing' =>
      simp only [tokens, List.cons_append, List.append_assoc, List.nil_append,
        List.cons.injEq] at h
      obtain ⟨rfl, h⟩ := h
      obtain ⟨rfl, hclose⟩ := ih inner' h (.of_kind hclosing) (.of_kind hclosing')
      cases hclose
      exact ⟨rfl, rfl⟩
    | tuple opening' first' comma' second' others' closing' hopening' hcomma' hclosing' =>
      simp only [tokens, List.cons_append, List.append_assoc, List.nil_append,
        List.cons.injEq] at h
      obtain ⟨rfl, hbehind⟩ := ih first' h.2 (.of_kind hclosing) (.of_kind hcomma')
      grind
    | _ => grind [tokens]
  | tuple opening first comma second others closing hopening hcomma hclosing ih ihSecond ihOthers =>
    have hcloses : NotAhead (Phrase.goesOn .others) (closing :: rest) := .of_kind hclosing
    have hparts : NotAhead (Phrase.goesOn .type) (comma :: (second.tokens ++ (others.tokens ++
        closing :: rest))) := .of_kind hcomma
    cases d' with
    | group opening' inner' closing' hopening' hclosing' =>
      simp only [tokens, List.cons_append, List.append_assoc, List.nil_append,
        List.cons.injEq] at h
      obtain ⟨rfl, hbehind⟩ := ih inner' h.2 hparts (.of_kind hclosing')
      grind
    | tuple opening' first' comma' second' others' closing' hopening' hcomma' hclosing' =>
      have hcloses' : NotAhead (Phrase.goesOn .others) (closing' :: rest') := .of_kind hclosing'
      simp only [tokens, List.cons_append, List.append_assoc, List.nil_append,
        List.cons.injEq] at h
      obtain ⟨rfl, h⟩ := h
      obtain ⟨rfl, hbehind⟩ := ih first' h hparts (.of_kind hcomma')
      obtain ⟨rfl, hsecond⟩ := List.cons.inj hbehind
      obtain ⟨rfl, hothers⟩ := ihSecond second' hsecond (others.notAhead_others hcloses)
        (others'.notAhead_others hcloses')
      obtain ⟨rfl, hclose⟩ := ihOthers others' hothers hcloses hcloses'
      cases hclose
      exact ⟨rfl, rfl⟩
    | _ => grind [tokens]
  | list opening first others closing hopening hclosing ih ihOthers =>
    cases d' with
    | list opening' first' others' closing' hopening' hclosing' =>
      have hcloses : NotAhead (Phrase.goesOn .others) (closing :: rest) := .of_kind hclosing
      have hcloses' : NotAhead (Phrase.goesOn .others) (closing' :: rest') := .of_kind hclosing'
      simp only [tokens, List.cons_append, List.append_assoc, List.nil_append,
        List.cons.injEq] at h
      obtain ⟨rfl, h⟩ := h
      obtain ⟨rfl, hothers⟩ := ih first' h (others.notAhead_others hcloses)
        (others'.notAhead_others hcloses')
      obtain ⟨rfl, hclose⟩ := ihOthers others' hothers hcloses hcloses'
      cases hclose
      exact ⟨rfl, rfl⟩
    | _ => grind [tokens]
  | bare part ih =>
    cases d' with
    | bare part' =>
      obtain ⟨rfl, rfl⟩ := ih part' h (notAhead_none _) (notAhead_none _)
      exact ⟨rfl, rfl⟩
    | starred part' star' hstar' =>
      simp only [tokens, List.append_assoc, List.cons_append, List.nil_append] at h
      obtain ⟨rfl, rfl⟩ := ih part' h (notAhead_none _) (notAhead_none _)
      exact absurd hstar' (by simpa [Phrase.goesOn] using notAhead_cons.mp hrest)
  | starred part star hstar ih =>
    cases d' with
    | bare part' =>
      simp only [tokens, List.append_assoc, List.cons_append, List.nil_append] at h
      obtain ⟨rfl, rfl⟩ := ih part' h (notAhead_none _) (notAhead_none _)
      exact absurd hstar (by simpa [Phrase.goesOn] using notAhead_cons.mp hrest')
    | starred part' star' hstar' =>
      simp only [tokens, List.append_assoc, List.cons_append, List.nil_append] at h
      obtain ⟨rfl, hstars⟩ := ih part' h (notAhead_none _) (notAhead_none _)
      cases hstars
      exact ⟨rfl, rfl⟩
  | plain only ih =>
    have hmore : NotAhead (Phrase.goesOn .starred) rest := hrest.mono (by simp [Phrase.goesOn])
    cases d' with
    | plain only' =>
      obtain ⟨rfl, rfl⟩ := ih only' h hmore (hrest'.mono (by simp [Phrase.goesOn]))
      exact ⟨rfl, rfl⟩
    | arrow arg' sign' result' hsign' =>
      simp only [tokens, List.append_assoc, List.cons_append] at h
      obtain ⟨rfl, rfl⟩ := ih arg' h hmore (.of_kind hsign')
      have hnone := notAhead_cons.mp hrest
      simp [hsign', Phrase.goesOn] at hnone
  | arrow arg sign result hsign ihArg ihResult =>
    have hmore : NotAhead (Phrase.goesOn .starred) (sign :: (result.tokens ++ rest)) := .of_kind hsign
    simp only [tokens, List.append_assoc, List.cons_append] at h
    cases d' with
    | plain only' =>
      obtain ⟨rfl, rfl⟩ := ihArg only' h hmore (hrest'.mono (by simp [Phrase.goesOn]))
      have hnone := notAhead_cons.mp hrest'
      simp [hsign, Phrase.goesOn] at hnone
    | arrow arg' sign' result' hsign' =>
      simp only [tokens, List.append_assoc, List.cons_append] at h
      obtain ⟨rfl, hbehind⟩ := ihArg arg' h hmore (.of_kind hsign')
      obtain ⟨rfl, hresult⟩ := List.cons.inj hbehind
      obtain ⟨rfl, rfl⟩ := ihResult result' hresult hrest hrest'
      exact ⟨rfl, rfl⟩
  | noOthers =>
    cases d' with
    | noOthers => exact ⟨rfl, h⟩
    | other comma' first' others' hcomma' =>
      simp only [tokens, List.nil_append, List.cons_append] at h
      rw [h] at hrest
      have hnone := notAhead_cons.mp hrest
      simp [hcomma', Phrase.goesOn] at hnone
  | other comma first others hcomma ih ihOthers =>
    simp only [tokens, List.cons_append, List.append_assoc] at h
    cases d' with
    | noOthers =>
      simp only [tokens, List.nil_append] at h
      rw [← h] at hrest'
      have hnone := notAhead_cons.mp hrest'
      simp [hcomma, Phrase.goesOn] at hnone
    | other comma' first' others' hcomma' =>
      simp only [tokens, List.cons_append, List.append_assoc, List.cons.injEq] at h
      obtain ⟨rfl, h⟩ := h
      obtain ⟨rfl, hothers⟩ := ih first' h (others.notAhead_others hrest)
        (others'.notAhead_others hrest')
      obtain ⟨rfl, rfl⟩ := ihOthers others' hothers hrest hrest'
      exact ⟨rfl, rfl⟩

end Derivation

/-- How the whole text of a type derives from the grammar, with or without a name in front. -/
inductive Signature where
  | plain (type : Derivation .type)
  | named (name bind : Token) (type : Derivation .type) (hname : name.kind = .name)
      (hbind : bind.kind = .bind)

namespace Signature

def tokens : Signature → List Token
  | plain type => type.tokens
  | named name bind type _ _ => name :: bind :: type.tokens

def name? : Signature → Option String
  | plain _ => none
  | named name _ _ _ _ => some (String.ofList name.text)

def meaning : Signature → Ty
  | plain type => type.meaning
  | named _ _ type _ _ => type.meaning

theorem tokens_named_ne_plain {name bind : Token} {type type' : Derivation .type}
    (hbind : bind.kind = .bind) : name :: bind :: type.tokens ≠ type'.tokens := by
  intro h
  exact type'.kind_ne_bind bind (by simp [← h]) hbind

theorem eq_of_tokens_eq {s s' : Signature} (h : s.tokens = s'.tokens) : s = s' := by
  have htype : ∀ d d' : Derivation .type, d.tokens = d'.tokens → d = d' := by
    intro d d' hd
    have happend : d.tokens ++ [] = d'.tokens ++ [] := by rw [hd]
    exact (d.unambiguous d' happend (notAhead_nil _) (notAhead_nil _)).1
  cases s with
  | plain type =>
    cases s' with
    | plain type' => rw [htype type type' h]
    | named name' bind' type' hname' hbind' => exact absurd h.symm (tokens_named_ne_plain hbind')
  | named name bind type hname hbind =>
    cases s' with
    | plain type' => exact absurd h (tokens_named_ne_plain hbind)
    | named name' bind' type' hname' hbind' =>
      simp only [tokens, List.cons.injEq] at h
      obtain ⟨rfl, rfl, h⟩ := h
      cases htype type type' h
      rfl

end Signature

variable {ts : List Token} {ty : Ty} {c : Char} {offset : Nat}

theorem takeName_cases (ahead : List Token) :
    takeName ahead = (none, ahead) ∨ ∃ t u rest, t.kind = .name ∧ u.kind = .bind ∧
      ahead = t :: u :: rest ∧ takeName ahead = (some (String.ofList t.text), rest) := by
  unfold takeName
  split
  next t u rest =>
    by_cases h : t.kind = .name ∧ u.kind = .bind
    · exact .inr ⟨t, u, rest, h.1, h.2, rfl, if_pos h⟩
    · exact .inl (if_neg h)
  next => exact .inl rfl

theorem readType_whole_iff {size fuel : Nat} (hfuel : 2 * ts.length ≤ fuel) :
    readType size fuel ts = .ok (ty, []) ↔ ∃ d : Derivation .type, d.tokens = ts ∧ d.meaning = ty := by
  constructor
  · intro h
    obtain ⟨d, hts, hmeaning⟩ := (read_sound size fuel).1 _ _ _ h
    rw [List.append_nil] at hts
    exact ⟨d, hts.symm, hmeaning⟩
  · rintro ⟨d, rfl, rfl⟩
    have h := d.reads size fuel [] hfuel (notAhead_nil _)
    rwa [List.append_nil] at h

theorem parseNamed_eq_ok {text : String} {name : Option String} :
    parseNamed text = .ok (name, ty) ↔ (takeName (tokens text)).1 = name ∧
      ∃ d : Derivation .type, d.tokens = (takeName (tokens text)).2 ∧ d.meaning = ty := by
  have hlength := (takeName_suffix (tokens text)).length_le
  have hwhole := @readType_whole_iff (takeName (tokens text)).2 ty text.utf8ByteSize
    (2 * (tokens text).length + 2) (by omega)
  rw [← hwhole]
  constructor
  · intro h
    obtain ⟨⟨ty', rest⟩, hread, hbehind⟩ := bind_ok_iff.mp h
    cases rest with
    | nil =>
      cases hbehind
      exact ⟨rfl, hread⟩
    | cons t rest => simp [expected] at hbehind
  · rintro ⟨rfl, h⟩
    simp [parseNamed, h, bind, Except.bind, pure, Except.pure]

theorem exists_signature_iff {name : Option String} :
    (∃ s : Signature, s.tokens = ts ∧ s.name? = name ∧ s.meaning = ty) ↔
      (takeName ts).1 = name ∧
        ∃ d : Derivation .type, d.tokens = (takeName ts).2 ∧ d.meaning = ty := by
  constructor
  · rintro ⟨s, rfl, rfl, rfl⟩
    cases s with
    | plain type =>
      have hname := takeName_tokens type
      exact ⟨by rw [Signature.tokens, hname]; rfl, type, by rw [Signature.tokens, hname], rfl⟩
    | named name bind type hname hbind =>
      have htake : takeName (name :: bind :: type.tokens) =
          (some (String.ofList name.text), type.tokens) := if_pos ⟨hname, hbind⟩
      exact ⟨by rw [Signature.tokens, htake]; rfl, type, by rw [Signature.tokens, htake], rfl⟩
  · rintro ⟨rfl, d, hd, rfl⟩
    obtain hnone | ⟨t, u, rest, ht, hu, rfl, hname⟩ := takeName_cases ts
    · rw [hnone] at hd ⊢
      exact ⟨.plain d, hd, rfl, rfl⟩
    · rw [hname] at hd ⊢
      exact ⟨.named t u d ht hu, by rw [Signature.tokens, hd], rfl, rfl⟩

def signs : List (List Char × TokenKind) :=
  [([':', ':'], .bind), (['-', '>'], .arrow), (['('], .openParen), ([')'], .closeParen),
    (['['], .openBracket), ([']'], .closeBracket), ([','], .comma), (['*'], .star)]

/-- The tokens of characters that start at byte `offset`: blanks are none, words go as far as they
can, and a character that starts neither a word nor a sign is a token that stands in no rule of the
grammar. -/
inductive Scans : Nat → List Char → List Token → Prop
  | done {offset : Nat} : Scans offset [] []
  | blank {offset : Nat} {c : Char} {rest : List Char} {ts : List Token} :
    Text.isBlank c → Scans (offset + c.utf8Size) rest ts → Scans offset (c :: rest) ts
  | word {offset : Nat} {kind : TokenKind} {c : Char} {letters rest : List Char}
      {ts : List Token} :
    isLower c ∧ kind = .name ∨ isUpper c ∧ kind = .typeName → (∀ d ∈ letters, isLower d) →
    WordEnds rest → Scans (offset + byteCount (c :: letters)) rest ts →
    Scans offset (c :: (letters ++ rest)) (⟨kind, c :: letters, offset⟩ :: ts)
  | sign {offset : Nat} {kind : TokenKind} {sign rest : List Char} {ts : List Token} :
    (sign, kind) ∈ signs → Scans (offset + byteCount sign) rest ts →
    Scans offset (sign ++ rest) (⟨kind, sign, offset⟩ :: ts)
  | stray {offset : Nat} {c : Char} {rest : List Char} {ts : List Token} :
    Text.isBlank c = false → isLower c = false → isUpper c = false →
    (∀ s ∈ signs, ¬ s.1 <+: c :: rest) → Scans (offset + c.utf8Size) rest ts →
    Scans offset (c :: rest) (⟨.stray, [c], offset⟩ :: ts)

theorem tokensFrom_sign {kind : TokenKind} {sign : List Char} (offset : Nat) (rest : List Char)
    (hsign : (sign, kind) ∈ signs) : tokensFrom offset 0 (sign ++ rest) =
      ⟨kind, sign, offset⟩ :: tokensFrom (offset + byteCount sign) 0 rest := by
  simp only [signs, List.mem_cons, Prod.mk.injEq, List.not_mem_nil, or_false] at hsign
  rcases hsign with ⟨rfl, rfl⟩ | ⟨rfl, rfl⟩ | ⟨rfl, rfl⟩ | ⟨rfl, rfl⟩ | ⟨rfl, rfl⟩ | ⟨rfl, rfl⟩ |
    ⟨rfl, rfl⟩ | ⟨rfl, rfl⟩ <;> rfl

theorem singleKind_stray (h : ∀ s ∈ signs, s.1 ≠ [c]) : singleKind c = .stray := by
  unfold singleKind
  split <;> simp_all [signs]

theorem frontToken_stray {rest : List Char} (hlower : isLower c = false) (hupper : isUpper c = false)
    (hsigns : ∀ s ∈ signs, ¬ s.1 <+: c :: rest) : frontToken c rest = (.stray, 1) := by
  have hsingle : singleKind c = .stray := by
    apply singleKind_stray
    intro s hs heq
    exact hsigns s hs (by simp [heq])
  unfold frontToken
  rw [hlower, hupper]
  simp only [Bool.false_eq_true, if_false]
  split
  · exact absurd (by simp) (hsigns ([':', ':'], .bind) (by simp [signs]))
  · exact absurd (by simp) (hsigns (['-', '>'], .arrow) (by simp [signs]))
  · rw [hsingle]

theorem isLower_of_upper (hc : isUpper c) : isLower c = false := by
  simp only [isLower, isUpper, Bool.and_eq_true, decide_eq_true_eq, Char.le_def,
    UInt32.le_iff_toNat_le, Bool.and_eq_false_iff, decide_eq_false_iff_not] at hc ⊢
  change 65 ≤ c.toNat ∧ c.toNat ≤ 90 at hc
  change ¬ 97 ≤ c.toNat ∨ ¬ c.toNat ≤ 122
  omega

theorem Scans.tokensFrom_eq {chars : List Char} (h : Scans offset chars ts) : tokensFrom offset 0 chars = ts := by
  induction h with
  | done => rfl
  | blank hblank _ ih => rw [tokensFrom, if_pos hblank, ih]
  | word hc hletters hends _ ih =>
    rw [tokensFrom_word _ (hc.imp_right fun hc => ⟨isLower_of_upper hc.1, hc⟩) hletters hends, ih]
  | sign hsign _ ih => rw [tokensFrom_sign _ _ hsign, ih]
  | stray hblank hlower hupper hsigns _ ih =>
    rw [tokensFrom, hblank]
    simp [frontToken_stray hlower hupper hsigns, ih]

theorem wordEnds_dropWhile (rest : List Char) : WordEnds (rest.dropWhile isLower) := by
  intro c hc
  have hnot := List.head?_dropWhile_not isLower rest
  rw [Option.mem_def.mp hc] at hnot
  exact hnot

theorem scans_word {rest : List Char} (hc : isLower c ∨ isUpper c)
    (hts : Scans (offset + byteCount (c :: rest.takeWhile isLower))
      (rest.dropWhile isLower) ts) : ∃ ts, Scans offset (c :: rest) ts := by
  have hletters : ∀ d ∈ rest.takeWhile isLower, isLower d := fun d hd =>
    List.mem_takeWhile_imp hd
  obtain ⟨kind, hkind⟩ : ∃ kind, isLower c ∧ kind = TokenKind.name ∨
      isUpper c ∧ kind = TokenKind.typeName := by
    obtain hc | hc := hc
    · exact ⟨.name, .inl ⟨hc, rfl⟩⟩
    · exact ⟨.typeName, .inr ⟨hc, rfl⟩⟩
  have hword := Scans.word hkind hletters (wordEnds_dropWhile rest) hts
  rw [List.takeWhile_append_dropWhile] at hword
  exact ⟨_, hword⟩

theorem exists_scans (offset : Nat) (chars : List Char) : ∃ ts, Scans offset chars ts := by
  -- each step goes over a character at least
  induction hn : chars.length using Nat.strong_induction_on generalizing offset chars with
  | _ n ih =>
    subst hn
    cases chars with
    | nil => exact ⟨[], .done⟩
    | cons c rest =>
      by_cases hblank : Text.isBlank c
      · obtain ⟨ts, hts⟩ := ih _ (by simp) (offset + c.utf8Size) rest rfl
        exact ⟨ts, .blank hblank hts⟩
      by_cases hletter : isLower c ∨ isUpper c
      · have hshorter := (List.dropWhile_suffix isLower (l := rest)).length_le
        obtain ⟨ts, hts⟩ := ih _ (by rw [List.length_cons]; omega) _ (rest.dropWhile isLower) rfl
        exact scans_word hletter hts
      by_cases hsign : ∃ s ∈ signs, s.1 <+: c :: rest
      · obtain ⟨⟨sign, kind⟩, hsign, behind, hchars⟩ := hsign
        have hpos : 0 < sign.length := by
          simp only [signs, List.mem_cons, Prod.mk.injEq, List.not_mem_nil, or_false] at hsign
          rcases hsign with h | h | h | h | h | h | h | h <;> simp [h.1]
        change sign ++ behind = c :: rest at hchars
        rw [← hchars, List.length_append] at ih
        obtain ⟨ts, hts⟩ := ih _ (by omega) (offset + byteCount sign) behind rfl
        rw [← hchars]
        exact ⟨_, .sign hsign hts⟩
      · obtain ⟨ts, hts⟩ := ih _ (by simp) (offset + c.utf8Size) rest rfl
        simp only [not_or, Bool.not_eq_true] at hletter hblank
        simp only [not_exists, not_and] at hsign
        exact ⟨_, .stray hblank hletter.1 hletter.2 hsign hts⟩

theorem scans_iff {chars : List Char} : Scans offset chars ts ↔ ts = tokensFrom offset 0 chars := by
  constructor
  · intro h
    exact h.tokensFrom_eq.symm
  · rintro rfl
    obtain ⟨ts, hts⟩ := exists_scans offset chars
    rwa [hts.tokensFrom_eq]

/-- The grammar of types is what is read. Every text has one sequence of tokens, the tokens have at
most one derivation, and the text is read exactly if they have one, as the name and the type that
the derivation means. -/
theorem parseNamed_derives (text : String) :
    ∃ ts, (∀ ts', Scans 0 text.toList ts' ↔ ts' = ts) ∧
      (∀ s s' : Signature, s.tokens = ts → s'.tokens = ts → s = s') ∧
      ∀ name ty, parseNamed text = .ok (name, ty) ↔
        ∃ s : Signature, s.tokens = ts ∧ s.name? = name ∧ s.meaning = ty := by
  refine ⟨tokens text, fun ts' => scans_iff, fun s s' hs hs' => ?_, fun name ty => ?_⟩
  · exact Signature.eq_of_tokens_eq (hs.trans hs'.symm)
  · rw [parseNamed_eq_ok, exists_signature_iff]

theorem parseNamed_derives_pair :
    (∃ s : Signature, Scans 0 "f :: (a, Str *)* -> b".toList s.tokens ∧ s.name? = some "f" ∧
      s.meaning = .arrow (.lst [.unknown "a", .str true] true true) (.unknown "b") ∧
      ∀ s' : Signature, s'.tokens = s.tokens → s' = s) ∧
    ¬ ∃ s : Signature, Scans 0 "(a, Str -> b".toList s.tokens := by
  constructor
  · obtain ⟨ts, hscans, hunique, hreads⟩ := parseNamed_derives "f :: (a, Str *)* -> b"
    have hparse : parseNamed "f :: (a, Str *)* -> b" =
      .ok (some "f", .arrow (.lst [.unknown "a", .str true] true true) (.unknown "b")) := by cbv
    obtain ⟨s, hs, hname, hmeaning⟩ := (hreads _ _).mp hparse
    exact ⟨s, (hscans _).mpr hs, hname, hmeaning, fun s' hs' => hunique s' s (hs'.trans hs) hs⟩
  · rintro ⟨s, hs⟩
    obtain ⟨ts, hscans, _, hreads⟩ := parseNamed_derives "(a, Str -> b"
    have hparse := (hreads s.name? s.meaning).mpr ⟨s, (hscans _).mp hs, rfl, rfl⟩
    have hrefused : (parseNamed "(a, Str -> b").toOption = none := by cbv
    rw [hparse] at hrefused
    cases hrefused

end PullScript.Ty
