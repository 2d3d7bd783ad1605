import PullScript.Proofs.Ty.Written

namespace PullScript.Ty

variable {letters texts : List Char} {first : Ty} {others : List Ty}

variable {rest text : List Char} {c : Char} {ty : Ty}

theorem tokensFrom_skip (offset : Nat) (skipped rest : List Char) :
    tokensFrom offset skipped.length (skipped ++ rest) = tokensFrom (offset + byteCount skipped) 0 rest := by
  induction skipped generalizing offset with
  | nil => rfl
  | cons c skipped ih =>
    rw [List.length_cons, List.cons_append, tokensFrom, ih, byteCount, Nat.add_assoc]

/-- No lowercase letter is in front, so that a word that ends here cannot go on. -/
def WordEnds (rest : List Char) : Prop :=
  ∀ c ∈ rest.head?, isLower c = false

theorem takeWhile_word (hletters : ∀ c ∈ letters, isLower c) (hrest : WordEnds rest) :
    (letters ++ rest).takeWhile isLower = letters := by
  rw [List.takeWhile_append_of_pos hletters]
  cases rest with
  | nil => simp
  | cons c rest => simp [hrest c (by simp)]

theorem isBlank_of_letter (hc : isLower c ∨ isUpper c) : Text.isBlank c = false := by
  have hrange : 65 ≤ c.toNat ∧ c.toNat ≤ 122 := by
    simp only [isLower, isUpper, Bool.and_eq_true, decide_eq_true_eq, Char.le_def,
      UInt32.le_iff_toNat_le] at hc
    change (97 ≤ c.toNat ∧ c.toNat ≤ 122) ∨ (65 ≤ c.toNat ∧ c.toNat ≤ 90) at hc
    omega
  simp only [Text.isBlank, Bool.or_eq_false_iff, Bool.and_eq_false_iff, decide_eq_false_iff_not,
    beq_eq_false_iff_ne]
  omega

theorem tokensFrom_word {kind : TokenKind} (offset : Nat)
    (hc : isLower c ∧ kind = .name ∨ isLower c = false ∧ isUpper c ∧ kind = .typeName)
    (hletters : ∀ d ∈ letters, isLower d) (hrest : WordEnds rest) :
    tokensFrom offset 0 (c :: (letters ++ rest)) = ⟨kind, c :: letters, offset⟩ ::
      tokensFrom (offset + byteCount (c :: letters)) 0 rest := by
  have hblank : Text.isBlank c = false := isBlank_of_letter (hc.imp And.left (·.2.1))
  have hword := takeWhile_word hletters hrest
  have hfront : frontToken c (letters ++ rest) = (kind, 1 + letters.length) := by
    obtain ⟨hc, rfl⟩ | ⟨hlower, hupper, rfl⟩ := hc
    · simp [frontToken, hc, hword]
    · simp [frontToken, hlower, hupper, hword]
  have htext : (c :: (letters ++ rest)).take (1 + letters.length) = c :: letters := by
    have htake := take_word c (letters ++ rest)
    rwa [hword] at htake
  rw [tokensFrom, hblank]
  simp only [Bool.false_eq_true, if_false, hfront, htext, Nat.add_sub_cancel_left]
  rw [tokensFrom_skip, byteCount, Nat.add_assoc]

def marks : List Char := ['(', ')', '[', ']', ',', '*']

theorem isLower_mark (hc : c ∈ marks) : isLower c = false := by
  simp only [marks, List.mem_cons, List.not_mem_nil, or_false] at hc
  obtain rfl | rfl | rfl | rfl | rfl | rfl := hc <;> rfl

theorem tokensFrom_mark (rest : List Char) (offset : Nat) (hc : c ∈ marks) :
    tokensFrom offset 0 (c :: rest) = ⟨singleKind c, [c], offset⟩ :: tokensFrom (offset + c.utf8Size) 0 rest := by
  simp only [marks, List.mem_cons, List.not_mem_nil, or_false] at hc
  obtain rfl | rfl | rfl | rfl | rfl | rfl := hc <;> rfl

theorem tokensFrom_blank (rest : List Char) (offset : Nat) :
    tokensFrom offset 0 (' ' :: rest) = tokensFrom (offset + 1) 0 rest := rfl

theorem tokensFrom_arrow (rest : List Char) (offset : Nat) :
    tokensFrom offset 0 (' ' :: '-' :: '>' :: ' ' :: rest) =
      ⟨.arrow, ['-', '>'], offset + 1⟩ :: tokensFrom (offset + 4) 0 rest := rfl

/-- Characters whose tokens derive as a phrase, whatever follows that does not go on with a word. -/
def Spells (phrase : Phrase) (text : List Char) (meant : phrase.Meaning) : Prop :=
  ∀ offset rest, WordEnds rest → ∃ (d : Derivation phrase) (stop : Nat),
    tokensFrom offset 0 (text ++ rest) = d.tokens ++ tokensFrom stop 0 rest ∧ d.meaning = meant

theorem wordEnds_cons (hc : isLower c = false) : WordEnds (c :: rest) := by
  simpa [WordEnds] using hc

theorem spells_name {name : String} (h : (unknown name).Written) : Spells .part (shownName name) (.unknown name) := by
  obtain ⟨hne, hlower⟩ : name.toList ≠ [] ∧ ∀ c ∈ name.toList, isLower c := by
    simpa only [Written] using h
  have hshown : shownName name = name.toList := by
    rw [shownName, List.takeWhile_eq_self_iff]
    intro c hc
    have hletter := hlower c hc
    rw [bne_iff_ne]
    rintro rfl
    cases hletter
  intro offset rest hrest
  rw [hshown]
  rcases hname : name.toList with _ | ⟨c, letters⟩
  · exact absurd hname hne
  · rw [hname] at hlower
    refine ⟨.name ⟨.name, c :: letters, offset⟩ rfl, offset + byteCount (c :: letters), ?_, ?_⟩
    · exact tokensFrom_word offset (.inl ⟨hlower c (by simp), rfl⟩)
        (fun d hd => hlower d (by simp [hd])) hrest
    · simp only [Derivation.meaning]
      rw [← hname, String.ofList_toList]

theorem spells_num : Spells .part ['N', 'u', 'm'] .num := fun offset _ hrest =>
  ⟨.num ⟨.typeName, ['N', 'u', 'm'], offset⟩ rfl rfl, _,
    tokensFrom_word offset (.inr ⟨rfl, rfl, rfl⟩) (by simp [isLower]) hrest, rfl⟩

theorem spells_str : Spells .part ['S', 't', 'r'] (.str false) := fun offset _ hrest =>
  ⟨.str ⟨.typeName, ['S', 't', 'r'], offset⟩ rfl rfl, _,
    tokensFrom_word offset (.inr ⟨rfl, rfl, rfl⟩) (by simp [isLower]) hrest, rfl⟩

theorem WordEnds.append {front : List Char} (hfront : WordEnds front) (hrest : WordEnds rest) :
    WordEnds (front ++ rest) := by
  cases front with
  | nil => exact hrest
  | cons c front => exact wordEnds_cons (hfront c (by simp))

theorem wordEnds_star (endless : Bool) : WordEnds (star endless) := by
  cases endless <;> simp [WordEnds, star, isLower]

theorem Spells.star (h : Spells .part text ty) (hfinite : ty.withEndless false = ty) (endless : Bool) :
    Spells .starred (text ++ Ty.star endless) (ty.withEndless endless) := by
  intro offset rest hrest
  obtain ⟨d, stop, htokens, rfl⟩ := h offset (Ty.star endless ++ rest) ((wordEnds_star endless).append hrest)
  rw [List.append_assoc, htokens]
  cases endless with
  | false => exact ⟨.bare d, stop, rfl, hfinite.symm⟩
  | true =>
    refine ⟨.starred d ⟨.star, ['*'], stop⟩ rfl, stop + 1, ?_, (withEndless_true _).symm⟩
    rw [Derivation.tokens, List.append_assoc, Ty.star, if_pos rfl, List.singleton_append,
      tokensFrom_mark rest stop (by decide)]
    rfl

theorem spells_between {opening closing : Char} (hopening : opening ∈ marks) (hclosing : closing ∈ marks)
    (hfirst : Spells .type text first) (hothers : Spells .others texts others) (htexts : WordEnds texts)
    (hty : ∀ (o c : Token) (d : Derivation .type) (e : Derivation .others), o.kind = singleKind opening →
      c.kind = singleKind closing → d.meaning = first → e.meaning = others →
      ∃ part : Derivation .part, part.tokens = o :: (d.tokens ++ (e.tokens ++ [c])) ∧ part.meaning = ty) :
    Spells .part (opening :: (text ++ (texts ++ [closing]))) ty := by
  intro offset rest _
  have hclose : WordEnds (closing :: rest) := wordEnds_cons (isLower_mark hclosing)
  obtain ⟨d, middle, htokens, hd⟩ := hfirst (offset + opening.utf8Size)
    (texts ++ closing :: rest) (htexts.append hclose)
  obtain ⟨e, last, htokens', he⟩ := hothers middle (closing :: rest) hclose
  obtain ⟨part, hpart, hmeaning⟩ := hty ⟨singleKind opening, [opening], offset⟩
    ⟨singleKind closing, [closing], last⟩ d e rfl rfl hd he
  refine ⟨part, last + closing.utf8Size, ?_, hmeaning⟩
  simp only [hpart, List.cons_append, List.append_assoc, List.nil_append]
  rw [tokensFrom_mark _ _ hopening, htokens, htokens', tokensFrom_mark _ _ hclosing]

theorem spells_list {tuple : Bool} (hfirst : Spells .type text first) (hothers : Spells .others texts others)
    (htexts : WordEnds texts) (hsize : (if tuple then 2 else 1) ≤ (first :: others).length) :
    Spells .part ((if tuple then '(' else '[') :: (text ++ (texts ++ [if tuple then ')' else ']'])))
      (.lst (first :: others) false tuple) := by
  cases tuple with
  | false =>
    refine spells_between (by decide) (by decide) hfirst hothers htexts fun o c d e ho hc hd he => ?_
    subst hd he
    exact ⟨.list o d e c ho hc, rfl, rfl⟩
  | true =>
    refine spells_between (by decide) (by decide) hfirst hothers htexts fun o c d e ho hc hd he => ?_
    subst hd he
    cases e with
    | noOthers => simp [Derivation.meaning] at hsize
    | other comma second others hcomma =>
      exact ⟨.tuple o d comma second others c ho hcomma hc, by simp [Derivation.tokens], rfl⟩

theorem Spells.plain (h : Spells .starred text ty) : Spells .type text ty := by
  intro offset rest hrest
  obtain ⟨d, stop, htokens, hd⟩ := h offset rest hrest
  exact ⟨.plain d, stop, htokens, hd⟩

theorem Spells.arrow {text' : List Char} {arg result : Ty} (harg : Spells .starred text arg)
    (hresult : Spells .type text' result) :
    Spells .type (text ++ ([' ', '-', '>', ' '] ++ text')) (.arrow arg result) := by
  intro offset rest hrest
  obtain ⟨d, middle, htokens, rfl⟩ := harg offset (' ' :: '-' :: '>' :: ' ' :: (text' ++ rest))
    (wordEnds_cons rfl)
  obtain ⟨e, stop, htokens', rfl⟩ := hresult (middle + 4) rest hrest
  refine ⟨.arrow d ⟨.arrow, ['-', '>'], middle + 1⟩ e rfl, stop, ?_, rfl⟩
  simp only [Derivation.tokens, List.cons_append, List.append_assoc, List.nil_append]
  rw [htokens, tokensFrom_arrow, htokens']

theorem Spells.group (h : Spells .type text ty) : Spells .starred ('(' :: (text ++ [')'])) ty := by
  intro offset rest _
  obtain ⟨d, stop, htokens, hd⟩ := h (offset + 1) (')' :: rest) (wordEnds_cons rfl)
  refine ⟨.bare (.group ⟨.openParen, ['('], offset⟩ d ⟨.closeParen, [')'], stop⟩ rfl rfl), stop + 1, ?_, hd⟩
  simp only [Derivation.tokens, List.cons_append, List.append_assoc, List.nil_append]
  exact (tokensFrom_mark _ offset (by decide)).trans
    (congrArg _ (htokens.trans (congrArg _ (tokensFrom_mark rest stop (by decide)))))

mutual

theorem spells_chars (ty : Ty) (h : ty.Written) :
    Spells .type ty.chars ty ∧ (ty.arg? = none → Spells .starred ty.chars ty) := by
  cases ty with
  | unknown name =>
    have hname := (spells_name h).star rfl false
    rw [star, if_neg (by simp), List.append_nil] at hname
    simp only [chars]
    exact ⟨hname.plain, fun _ => hname⟩
  | num =>
    have hnum := spells_num.star rfl false
    rw [star, if_neg (by simp), List.append_nil] at hnum
    simp only [chars]
    exact ⟨hnum.plain, fun _ => hnum⟩
  | str endless =>
    have hstr := spells_str.star rfl endless
    simp only [chars]
    exact ⟨hstr.plain, fun _ => hstr⟩
  | lst elements endless tuple =>
    obtain ⟨hsize, helements⟩ :
        (if tuple then 2 else 1) ≤ elements.length ∧ AllWritten elements := by
      simpa only [Written] using h
    cases elements with
    | nil => cases tuple <;> simp at hsize
    | cons first others =>
      have hfirst := spells_chars first helements.1
      have hothers := spells_charsAfterFirst others helements.2
      have hlist := (spells_list hfirst.1 hothers.1 hothers.2 hsize).star rfl endless
      have htext : (lst (first :: others) endless tuple).chars = 
          ((if tuple then '(' else '[') ::
            (first.chars ++ (charsAfterFirst others ++ [if tuple then ')' else ']']))) ++
            star endless := by
        simp [chars]
      rw [htext]
      exact ⟨hlist.plain, fun _ => hlist⟩
  | arrow arg result =>
    have harg := spells_chars arg h.1
    have hresult := spells_chars result h.2
    refine ⟨?_, by simp [arg?]⟩
    cases arg with
    | arrow arg₁ result₁ =>
      have harrow := harg.1.group.arrow hresult.1
      simpa [chars] using harrow
    | unknown | num | str | lst =>
      have harrow := (harg.2 rfl).arrow hresult.1
      simpa [chars] using harrow

theorem spells_charsAfterFirst (tys : List Ty) (h : AllWritten tys) :
    Spells .others (charsAfterFirst tys) tys ∧ WordEnds (charsAfterFirst tys) := by
  cases tys with
  | nil =>
    simp only [charsAfterFirst]
    exact ⟨fun offset rest _ => ⟨.noOthers, offset, rfl, rfl⟩, by simp [WordEnds]⟩
  | cons ty others =>
    have hty := spells_chars ty h.1
    have hothers := spells_charsAfterFirst others h.2
    simp only [charsAfterFirst]
    refine ⟨fun offset rest hrest => ?_, wordEnds_cons rfl⟩
    obtain ⟨d, middle, htokens, hd⟩ := hty.1 (offset + 2) (charsAfterFirst others ++ rest)
      (hothers.2.append hrest)
    obtain ⟨e, stop, htokens', he⟩ := hothers.1 middle rest hrest
    refine ⟨.other ⟨.comma, [','], offset⟩ d e rfl, stop, ?_, by rw [Derivation.meaning, hd, he]⟩
    simp only [Derivation.tokens, List.cons_append, List.append_assoc]
    rw [tokensFrom_mark _ offset (by decide), tokensFrom_blank]
    exact congrArg _ (htokens.trans (congrArg _ htokens'))

end

end PullScript.Ty
