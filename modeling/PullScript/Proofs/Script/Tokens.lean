import Mathlib.Data.List.Chain
import Mathlib.Data.List.TakeWhile
import PullScript.Proofs.Span
import PullScript.Script.Token

namespace PullScript.Script

variable {c : Char} {chars rest : List Char} {kind : TokenKind} {offset : Nat} {result : Except Error (List Token)}

/-- The characters behind an opening colon that no colon closes: colons come in pairs. -/
inductive Unclosed : List Char → Prop
  | nil : Unclosed []
  | plain {c : Char} {rest : List Char} : c ≠ ':' → Unclosed rest → Unclosed (c :: rest)
  | doubled {rest : List Char} : Unclosed rest → Unclosed (':' :: ':' :: rest)

theorem ne_colon_of_escaped? {control : Char} (h : escaped? c = some control) : c ≠ ':' := by
  rintro rfl
  cases h

theorem unclosed_of_readText_eq_none (h : readText chars = none) : Unclosed chars := by
  induction chars using readText.induct with
  | case1 => exact .nil
  | case2 rest ih =>
    rw [readText, Option.map_eq_none_iff] at h
    exact .doubled (ih h)
  | case3 rest hnot => simp [readText] at h
  | case4 c rest control hescaped ih =>
    simp only [readText, hescaped, Option.map_eq_none_iff] at h
    exact .plain (by decide) (.plain (ne_colon_of_escaped? hescaped) (ih h))
  | case5 c rest hescaped ih =>
    simp only [readText, hescaped, Option.map_eq_none_iff] at h
    exact .plain (by decide) (ih h)
  | case6 c rest hdoubled hcolon hback ih =>
    rw [readText, Option.map_eq_none_iff] at h
    · exact .plain hcolon (ih h)
    all_goals assumption

theorem readText_take {content : List Char} {length : Nat} (h : readText chars = some (content, length)) :
    0 < length ∧ length ≤ chars.length ∧ readText (chars.take length) = some (content, length) := by
  induction chars using readText.induct generalizing content length with
  | case1 => cases h
  | case2 rest ih =>
    rw [readText, Option.map_eq_some_iff] at h
    obtain ⟨⟨inner, n⟩, hinner, ⟨⟩⟩ := h
    obtain ⟨-, hle, htake⟩ := ih hinner
    simp [readText, htake, hle]
  | case3 rest hnot =>
    rw [readText] at h
    · cases h
      simp [readText]
    · exact hnot
  | case4 c rest control hescaped ih =>
    simp only [readText, hescaped, Option.map_eq_some_iff] at h
    obtain ⟨⟨inner, n⟩, hinner, ⟨⟩⟩ := h
    obtain ⟨-, hle, htake⟩ := ih hinner
    simp [readText, hescaped, htake, hle]
  | case5 c rest hescaped ih =>
    simp only [readText, hescaped, Option.map_eq_some_iff] at h
    obtain ⟨⟨inner, n⟩, hinner, ⟨⟩⟩ := h
    obtain ⟨hpos, hle, htake⟩ := ih hinner
    obtain _ | m := n
    · omega
    rw [List.take_succ_cons] at htake
    simp only [List.length_cons] at hle
    simp [readText, hescaped, htake]
    omega
  | case6 c rest hdoubled hcolon hback ih =>
    rw [readText, Option.map_eq_some_iff] at h
    · obtain ⟨⟨inner, n⟩, hinner, ⟨⟩⟩ := h
      obtain ⟨hpos, hle, htake⟩ := ih hinner
      refine ⟨Nat.succ_pos n, Nat.succ_le_succ hle, ?_⟩
      have hslash : c ≠ '\\' := by
        rintro rfl
        cases rest with
        | nil => cases hinner
        | cons c' rest' => exact hback c' rest' rfl rfl
      rw [List.take_succ_cons, readText, htake]
      · rfl
      · exact fun _ hc _ => hcolon hc
      · exact hcolon
      · exact fun _ _ hc _ => hslash hc
    all_goals assumption

theorem take_takeWhile_eq (p : Char → Bool) (chars : List Char) :
    chars.take (chars.takeWhile p).length = chars.takeWhile p :=
  (List.prefix_iff_eq_take.1 (List.takeWhile_prefix p)).symm

theorem length_takeWhile_pos {p : Char → Bool} (h : p c) : 0 < ((c :: rest).takeWhile p).length := by
  simp [h]

theorem readName_take (h : c.isLower) (rest : List Char) :
    0 < (readName (c :: rest)).2 ∧ (readName (c :: rest)).2 ≤ (c :: rest).length ∧
      readName ((c :: rest).take (readName (c :: rest)).2) = readName (c :: rest) := by
  refine ⟨length_takeWhile_pos h, (List.takeWhile_prefix _).length_le, ?_⟩
  simp only [readName, take_takeWhile_eq, List.takeWhile_idem]

theorem head?_dropWhile_not {p : Char → Bool} : ∀ c ∈ (chars.dropWhile p).head?, p c = false := by
  have h := List.head?_dropWhile_not p chars
  intro c hc
  rw [Option.mem_def.1 hc] at h
  exact h

theorem readNumber_append {whole : List Char} (hwhole : ∀ d ∈ whole, d.isDigit) (after : List Char)
    (hafter : ∀ d ∈ after.head?, d.isDigit = false) :
    readNumber (whole ++ after) = (.number (Number.ofDigits whole (readFraction after)),
      if (readFraction after).isEmpty then whole.length else whole.length + 1 + (readFraction after).length) := by
  have hnone : after.takeWhile Char.isDigit = [] ∧ after.dropWhile Char.isDigit = after := by
    cases after with
    | nil => simp
    | cons d rest =>
      have hd := hafter d rfl
      simp [hd]
  simp only [readNumber, List.takeWhile_append_of_pos hwhole, List.dropWhile_append_of_pos hwhole, hnone,
    List.append_nil]

theorem readNumber_take (h : c.isDigit) (rest : List Char) :
    0 < (readNumber (c :: rest)).2 ∧ (readNumber (c :: rest)).2 ≤ (c :: rest).length ∧
      readNumber ((c :: rest).take (readNumber (c :: rest)).2) = readNumber (c :: rest) := by
  obtain ⟨whole, after, hchars, hpos, hwhole, hafter⟩ : ∃ whole after, c :: rest = whole ++ after ∧
      0 < whole.length ∧ (∀ d ∈ whole, d.isDigit) ∧ ∀ d ∈ after.head?, d.isDigit = false :=
    ⟨(c :: rest).takeWhile Char.isDigit, (c :: rest).dropWhile Char.isDigit,
      List.takeWhile_append_dropWhile.symm, length_takeWhile_pos h, fun _ => List.mem_takeWhile_imp,
      head?_dropWhile_not⟩
  rw [hchars, readNumber_append hwhole after hafter]
  by_cases hnone : readFraction after = []
  · have hself := readNumber_append hwhole [] (by simp)
    rw [List.append_nil, show readFraction [] = [] from rfl] at hself
    simp [hnone, hself, hpos]
  · obtain ⟨more, rfl⟩ : ∃ more, after = '.' :: more := by
      unfold readFraction at hnone
      split at hnone
      case h_1 more => exact ⟨more, rfl⟩
      case h_2 => exact absurd rfl hnone
    have hself := readNumber_append hwhole ('.' :: more.takeWhile Char.isDigit) (by simp)
    have htake : (whole ++ '.' :: more).take (whole.length + 1 + (more.takeWhile Char.isDigit).length) =
        whole ++ '.' :: more.takeWhile Char.isDigit := by
      rw [Nat.add_assoc, List.take_length_add_append, Nat.add_comm 1, List.take_succ_cons, take_takeWhile_eq]
    have hle := (List.takeWhile_prefix Char.isDigit (l := more)).length_le
    simp only [readFraction, List.takeWhile_idem] at hself hnone ⊢
    simp [hnone, htake, hself]
    omega

theorem take_succ_of_reads {α : Type} {read : List Char → α × Nat}
    (h : 0 < (read (c :: rest)).2 ∧ (read (c :: rest)).2 ≤ (c :: rest).length ∧
      read ((c :: rest).take (read (c :: rest)).2) = read (c :: rest)) :
    ∃ n, (read (c :: rest)).2 = n + 1 ∧ n ≤ rest.length ∧ read (c :: rest.take n) = read (c :: rest) := by
  obtain ⟨hpos, hle, htake⟩ := h
  obtain ⟨n, hn⟩ : ∃ n, (read (c :: rest)).2 = n + 1 := ⟨_, (Nat.succ_pred (Nat.ne_of_gt hpos)).symm⟩
  rw [hn, List.length_cons] at hle
  rw [hn, List.take_succ_cons] at htake
  exact ⟨n, hn, by omega, htake⟩

theorem readToken_take {length : Nat} (h : readToken c rest = .ok (kind, length)) :
    ∃ n, length = n + 1 ∧ n ≤ rest.length ∧ readToken c (rest.take n) = .ok (kind, n + 1) := by
  unfold readToken at h ⊢
  by_cases hcolon : c = ':'
  · simp only [if_pos hcolon] at h ⊢
    cases htext : readText rest with
    | none => simp [htext] at h
    | some found =>
      obtain ⟨-, hle, htake⟩ := @readText_take rest found.1 found.2 htext
      simp only [htext, Except.ok.injEq, Prod.mk.injEq] at h
      obtain ⟨rfl, rfl⟩ := h
      exact ⟨found.2, rfl, hle, by rw [htake]⟩
  simp only [if_neg hcolon] at h ⊢
  by_cases hdigit : c.isDigit
  · simp only [if_pos hdigit] at h ⊢
    obtain ⟨n, hn, hle, htake⟩ := take_succ_of_reads (readNumber_take hdigit rest)
    rw [Except.ok.injEq] at h
    rw [h] at hn htake
    exact ⟨n, hn, hle, by rw [htake, ← hn]⟩
  simp only [if_neg hdigit] at h ⊢
  by_cases hlower : c.isLower
  · simp only [if_pos hlower] at h ⊢
    obtain ⟨n, hn, hle, htake⟩ := take_succ_of_reads (readName_take hlower rest)
    rw [Except.ok.injEq] at h
    rw [h] at hn htake
    exact ⟨n, hn, hle, by rw [htake, ← hn]⟩
  simp only [if_neg hlower] at h ⊢
  cases hsymbol : symbol? c with
  | none => simp [hsymbol] at h
  | some found =>
    simp only [hsymbol, Except.ok.injEq, Prod.mk.injEq] at h
    obtain ⟨rfl, rfl⟩ := h
    exact ⟨0, rfl, Nat.zero_le _, rfl⟩

theorem tokensFrom_skip (offset : Nat) (skipped rest : List Char) :
    tokensFrom offset skipped.length (skipped ++ rest) = tokensFrom (offset + byteCount skipped) 0 rest := by
  induction skipped generalizing offset with
  | nil => rfl
  | cons c skipped ih => rw [List.length_cons, List.cons_append, tokensFrom, ih, byteCount, Nat.add_assoc]

theorem tokensFrom_blank (h : Text.isBlank c) (offset : Nat) (rest : List Char) :
    tokensFrom offset 0 (c :: rest) = tokensFrom (offset + c.utf8Size) 0 rest := by
  rw [tokensFrom, if_pos h]

theorem tokensFrom_comment (offset : Nat) {body : List Char} (hbody : '\n' ∉ body)
    (hrest : ∀ c ∈ rest.head?, c = '\n') :
    tokensFrom offset 0 ('#' :: (body ++ rest)) = tokensFrom (offset + byteCount ('#' :: body)) 0 rest := by
  have hall : ∀ c ∈ body, decide (c ≠ '\n') = true := by
    intro c hc
    exact decide_eq_true fun h => hbody (h ▸ hc)
  have hnone : rest.takeWhile (· ≠ '\n') = [] := by
    cases rest with
    | nil => rfl
    | cons c rest => simp [hrest c rfl]
  rw [tokensFrom, if_neg (by decide), if_pos rfl, List.takeWhile_append_of_pos hall, hnone, List.append_nil,
    tokensFrom_skip, byteCount, Nat.add_assoc]

theorem tokensFrom_token (lexeme rest : List Char) (hblank : Text.isBlank c = false) (hcomment : c ≠ '#')
    (h : readToken c (lexeme ++ rest) = .ok (kind, lexeme.length + 1)) (offset : Nat) :
    tokensFrom offset 0 (c :: (lexeme ++ rest)) =
      (tokensFrom (offset + byteCount (c :: lexeme)) 0 rest).map
        (⟨kind, ⟨offset, byteCount (c :: lexeme)⟩⟩ :: ·) := by
  have htake : (c :: (lexeme ++ rest)).take (lexeme.length + 1) = c :: lexeme := by simp
  simp only [tokensFrom, hblank, hcomment, h, htake, Nat.add_sub_cancel, tokensFrom_skip, byteCount,
    ← Nat.add_assoc]
  simp only [Bool.false_eq_true, if_false]
  cases tokensFrom (offset + c.utf8Size + byteCount lexeme) 0 rest <;> rfl

def IsLexeme (chars : List Char) (kind : TokenKind) : Prop :=
  tokens (String.ofList chars) = .ok [⟨kind, ⟨0, byteCount chars⟩⟩, ⟨.stop, ⟨byteCount chars, 0⟩⟩]

theorem isLexeme_of_readToken (hblank : Text.isBlank c = false) (hcomment : c ≠ '#')
    (h : readToken c rest = .ok (kind, rest.length + 1)) : IsLexeme (c :: rest) kind := by
  have htoken := tokensFrom_token rest [] hblank hcomment (by rwa [List.append_nil]) 0
  rw [List.append_nil] at htoken
  rw [IsLexeme, tokens, String.toList_ofList, htoken, Nat.zero_add]
  rfl

structure Stray (c : Char) : Prop where
  notBlank : Text.isBlank c = false
  noComment : c ≠ '#'
  noLexeme : ∀ rest kind, ¬ IsLexeme (c :: rest) kind

/-- Why the characters `rest` from byte `offset` on have no tokens: they are a text that is not closed, or
start with a character that starts nothing. -/
def Stuck (offset : Nat) (rest : List Char) (error : Error) : Prop :=
  (∃ body, rest = ':' :: body ∧ Unclosed body ∧ error = .malformed .unclosedText ⟨offset, byteCount rest⟩) ∨
  ∃ c after, rest = c :: after ∧ Stray c ∧ error = .malformed (.strayCharacter c) ⟨offset, c.utf8Size⟩

theorem stuck_of_readToken {cause : Malformed} {size : Nat} (hblank : Text.isBlank c = false) (hcomment : c ≠ '#')
    (h : readToken c rest = .error (cause, size)) (offset : Nat) :
    Stuck offset (c :: rest) (.malformed cause ⟨offset, size⟩) := by
  by_cases hcolon : c = ':'
  · subst hcolon
    rw [readToken, if_pos rfl] at h
    split at h
    case h_1 => cases h
    case h_2 hnone =>
      cases h
      exact .inl ⟨rest, rfl, unclosed_of_readText_eq_none hnone, rfl⟩
  · have hstray : readToken c rest = .error (.strayCharacter c, c.utf8Size) ∧
        ∀ other, readToken c other = readToken c rest := by
      unfold readToken at h ⊢
      simp only [if_neg hcolon] at h ⊢
      by_cases hdigit : c.isDigit
      · simp [hdigit] at h
      by_cases hlower : c.isLower
      · simp [hdigit, hlower] at h
      cases hsymbol : symbol? c with
      | some kind => simp [hdigit, hlower, hsymbol] at h
      | none => simp [hdigit, hlower]
    obtain ⟨hread, hother⟩ := hstray
    cases h.symm.trans hread
    refine .inr ⟨c, rest, rfl, ⟨hblank, hcomment, fun other kind hlexeme => ?_⟩, rfl⟩
    have hfails : tokensFrom 0 0 (c :: other) = .error (.malformed (.strayCharacter c) ⟨0, c.utf8Size⟩) := by
      simp [tokensFrom, hblank, hcomment, hother, hread]
    rw [IsLexeme, tokens, String.toList_ofList, hfails] at hlexeme
    cases hlexeme

/-- Tokens laid out over the characters from byte `offset` on, which `after` follows: lexemes, blanks, and
comments up to the end of a line or of the source. -/
inductive Laid (after : List Char) : Nat → List Char → List Token → Prop
  | done (offset : Nat) : Laid after offset [] []
  | blank {offset : Nat} {c : Char} {rest : List Char} {ts : List Token} : Text.isBlank c →
    Laid after (offset + c.utf8Size) rest ts → Laid after offset (c :: rest) ts
  | comment {offset : Nat} {body rest : List Char} {ts : List Token} : '\n' ∉ body →
    (∀ c ∈ (rest ++ after).head?, c = '\n') → Laid after (offset + byteCount ('#' :: body)) rest ts →
    Laid after offset ('#' :: (body ++ rest)) ts
  | token {offset : Nat} {lexeme rest : List Char} {kind : TokenKind} {ts : List Token} : lexeme ≠ [] →
    IsLexeme lexeme kind → Laid after (offset + byteCount lexeme) rest ts →
    Laid after offset (lexeme ++ rest) (⟨kind, ⟨offset, byteCount lexeme⟩⟩ :: ts)

def Lexed (offset : Nat) (chars : List Char) : Except Error (List Token) → Prop
  | .ok ts => ∃ front, ts = front ++ [⟨.stop, ⟨offset + byteCount chars, 0⟩⟩] ∧ Laid [] offset chars front
  | .error error => ∃ before rest front, chars = before ++ rest ∧ Laid rest offset before front ∧
    Stuck (offset + byteCount before) rest error

theorem Lexed.blank (hc : Text.isBlank c) (h : Lexed (offset + c.utf8Size) rest result) :
    Lexed offset (c :: rest) result := by
  cases result with
  | ok ts =>
    obtain ⟨front, rfl, hlaid⟩ := h
    exact ⟨front, by rw [byteCount, Nat.add_assoc], .blank hc hlaid⟩
  | error error =>
    obtain ⟨before, rest, front, rfl, hlaid, hstuck⟩ := h
    refine ⟨c :: before, rest, front, rfl, .blank hc hlaid, ?_⟩
    rwa [byteCount, ← Nat.add_assoc]

theorem Lexed.comment {body : List Char} (hbody : '\n' ∉ body) (hrest : ∀ c ∈ rest.head?, c = '\n')
    (h : Lexed (offset + byteCount ('#' :: body)) rest result) : Lexed offset ('#' :: (body ++ rest)) result := by
  cases result with
  | ok ts =>
    obtain ⟨front, rfl, hlaid⟩ := h
    refine ⟨front, ?_, .comment hbody (by rwa [List.append_nil]) hlaid⟩
    rw [← List.cons_append, byteCount_append, Nat.add_assoc]
  | error error =>
    obtain ⟨before, rest, front, rfl, hlaid, hstuck⟩ := h
    refine ⟨'#' :: (body ++ before), rest, front, by simp, .comment hbody hrest hlaid, ?_⟩
    rwa [← List.cons_append, byteCount_append, ← Nat.add_assoc]

theorem Lexed.token {lexeme : List Char} (hne : lexeme ≠ []) (hlexeme : IsLexeme lexeme kind)
    (h : Lexed (offset + byteCount lexeme) rest result) :
    Lexed offset (lexeme ++ rest) (result.map (⟨kind, ⟨offset, byteCount lexeme⟩⟩ :: ·)) := by
  cases result with
  | ok ts =>
    obtain ⟨front, rfl, hlaid⟩ := h
    refine ⟨_, ?_, .token hne hlexeme hlaid⟩
    rw [byteCount_append, Nat.add_assoc, List.cons_append]
  | error error =>
    obtain ⟨before, rest, front, rfl, hlaid, hstuck⟩ := h
    refine ⟨lexeme ++ before, rest, _, (List.append_assoc ..).symm, .token hne hlexeme hlaid, ?_⟩
    rwa [byteCount_append, ← Nat.add_assoc]

theorem lexed_tokensFrom (offset : Nat) (chars : List Char) : Lexed offset chars (tokensFrom offset 0 chars) := by
  induction hlength : chars.length using Nat.strongRecOn generalizing offset chars with
  | ind length ih =>
    subst hlength
    cases chars with
    | nil => exact ⟨[], rfl, .done offset⟩
    | cons c rest =>
      cases hblank : Text.isBlank c with
      | true =>
        rw [tokensFrom_blank hblank]
        exact (ih _ (Nat.lt_succ_self _) _ rest rfl).blank hblank
      | false =>
        by_cases hcomment : c = '#'
        · subst hcomment
          obtain ⟨body, after, rfl, hbody, hafter⟩ : ∃ body after, rest = body ++ after ∧ '\n' ∉ body ∧
              ∀ c ∈ after.head?, c = '\n' := by
            refine ⟨rest.takeWhile (· ≠ '\n'), rest.dropWhile (· ≠ '\n'),
              List.takeWhile_append_dropWhile.symm, fun hmem => ?_, fun c hc => ?_⟩
            · simpa using List.mem_takeWhile_imp hmem
            · simpa using head?_dropWhile_not c hc
          rw [tokensFrom_comment offset hbody hafter]
          refine (ih _ ?_ _ after rfl).comment hbody hafter
          simp only [List.length_cons, List.length_append]
          omega
        · cases hread : readToken c rest with
          | ok found =>
            obtain ⟨n, hlength, hle, htake⟩ := @readToken_take c rest found.1 found.2 hread
            have hn : (rest.take n).length = n := List.length_take_of_le hle
            have hlexeme := isLexeme_of_readToken hblank hcomment (htake.trans (by rw [hn]))
            have htoken := tokensFrom_token (rest.take n) (rest.drop n) hblank hcomment
              (by rw [List.take_append_drop, hn, ← hlength]; exact hread) offset
            rw [List.take_append_drop] at htoken
            have hlexed := (ih _ (by simp only [List.length_drop, List.length_cons]; omega)
              (offset + byteCount (c :: rest.take n)) (rest.drop n) rfl).token (List.cons_ne_nil _ _) hlexeme
            rw [List.cons_append, List.take_append_drop] at hlexed
            rwa [htoken]
          | error found =>
            have hfails : tokensFrom offset 0 (c :: rest) = .error (.malformed found.1 ⟨offset, found.2⟩) := by
              simp [tokensFrom, hblank, hcomment, hread]
            rw [hfails]
            exact ⟨[], c :: rest, [], rfl, .done offset, stuck_of_readToken hblank hcomment hread offset⟩

/-- Blanks and comments that `after` follows. A comment goes up to the end of a line or of the source. -/
inductive Gap (after : List Char) : List Char → Prop
  | nil : Gap after []
  | blank {c : Char} {rest : List Char} : Text.isBlank c → Gap after rest → Gap after (c :: rest)
  | comment {body rest : List Char} : '\n' ∉ body → (∀ c ∈ (rest ++ after).head?, c = '\n') →
    Gap after rest → Gap after ('#' :: (body ++ rest))

theorem Gap.append {after gap more : List Char} (h : Gap (more ++ after) gap) (hmore : Gap after more) :
    Gap after (gap ++ more) := by
  induction h with
  | nil => exact hmore
  | blank hc _ ih => exact .blank hc ih
  | comment hbody hrest _ ih =>
    rw [List.cons_append, List.append_assoc]
    exact .comment hbody (by rwa [List.append_assoc]) ih

def Apart (source : List Char) (a b : Span) : Prop :=
  ∃ before gap after, source = before ++ gap ++ after ∧ a.stop = byteCount before ∧
    b.offset = byteCount (before ++ gap) ∧ Gap after gap

theorem Apart.le {source : List Char} {a b : Span} (h : Apart source a b) : a.stop ≤ b.offset := by
  obtain ⟨before, gap, after, -, ha, hb, -⟩ := h
  rw [ha, hb, byteCount_append]
  exact Nat.le_add_right _ _

def Token.Fits (source : List Char) (t : Token) : Prop :=
  ∃ lexeme, lexeme ≠ [] ∧ t.span.Holds source lexeme ∧ IsLexeme lexeme t.kind

namespace Laid

variable {source chars after : List Char} {offset : Nat} {ts : List Token}

theorem fits (h : Laid after offset chars ts) (before : List Char) (hsource : source = before ++ chars ++ after)
    (hoffset : offset = byteCount before) : ∀ t ∈ ts, t.Fits source := by
  induction h generalizing before with
  | done => simp
  | @blank offset c rest ts hc hrest ih =>
    exact ih (before ++ [c]) (by simp [hsource]) (by simp [hoffset, byteCount_append, byteCount])
  | @comment offset body rest ts hbody hrest _ ih =>
    exact ih (before ++ '#' :: body) (by simp [hsource]) (by rw [hoffset, byteCount_append])
  | @token offset lexeme rest kind ts hne hlexeme _ ih =>
    refine List.forall_mem_cons.2 ⟨⟨lexeme, hne, ⟨before, rest ++ after, by simp [hsource], ?_⟩, hlexeme⟩, ?_⟩
    · rw [hoffset]
    · exact ih (before ++ lexeme) (by simp [hsource]) (by rw [hoffset, byteCount_append])

theorem chain (h : Laid after offset chars ts) (before gap : List Char) (last : Span)
    (hsource : source = before ++ gap ++ chars ++ after) (hoffset : offset = byteCount (before ++ gap))
    (hlast : last.stop = byteCount before) (hgap : Gap (chars ++ after) gap) :
    List.IsChain (Apart source) (last :: (ts.map (·.span) ++ [⟨offset + byteCount chars, 0⟩])) := by
  induction h generalizing before gap last with
  | done offset =>
    refine List.isChain_pair.2 ⟨before, gap, after, ?_, hlast, hoffset, hgap⟩
    simpa using hsource
  | @blank offset c rest ts hc hrest ih =>
    have hchain := ih before (gap ++ [c]) last (by simp [hsource])
      (by simp [hoffset, byteCount_append, byteCount, Nat.add_assoc]) hlast
      (Gap.append hgap (.blank hc .nil))
    rwa [Nat.add_assoc] at hchain
  | @comment offset body rest ts hbody hrest _ ih =>
    have hcomment : Gap (rest ++ after) ('#' :: body) := by
      simpa using @Gap.comment (rest ++ after) body [] hbody hrest .nil
    have hchain := ih before (gap ++ '#' :: body) last (by simp [hsource])
      (by simp [hoffset, byteCount_append, byteCount, Nat.add_assoc]) hlast
      (Gap.append (by simpa using hgap) hcomment)
    rwa [Nat.add_assoc, ← byteCount_append] at hchain
  | @token offset lexeme rest kind ts hne hlexeme _ ih =>
    have hchain := ih (before ++ gap ++ lexeme) [] ⟨offset, byteCount lexeme⟩
      (by simp [hsource]) (by simp [hoffset, byteCount_append, Nat.add_assoc])
      (by simp [Span.stop, hoffset, byteCount_append, Nat.add_assoc]) .nil
    rw [Nat.add_assoc, ← byteCount_append] at hchain
    refine List.IsChain.cons_cons ⟨before, gap, lexeme ++ rest ++ after, ?_, hlast, hoffset, hgap⟩ hchain
    simp [hsource]

end Laid

theorem pairwise_of_isChain {source : List Char} {spans : List Span} (h : List.IsChain (Apart source) spans) :
    spans.Pairwise fun a b => a.stop ≤ b.offset := by
  have htrans : ∀ {a b c : Span}, a.stop ≤ b.offset → b.stop ≤ c.offset → a.stop ≤ c.offset := by
    intro a b c hab hbc
    simp only [Span.stop] at *
    omega
  have : IsTrans Span fun a b => a.stop ≤ b.offset := ⟨fun _ _ _ => htrans⟩
  exact List.isChain_iff_pairwise.1 (h.imp fun _ _ => Apart.le)

/-- The tokens of a source cover it in order, with only blanks and whole comments between them, up to the end
of the source. Where there are no tokens, the source is covered up to a text that is not closed or a
character that starts nothing. -/
theorem tokens_cover (source : String) :
    (∀ ts, tokens source = .ok ts → ∃ front, ts = front ++ [⟨.stop, ⟨byteCount source.toList, 0⟩⟩] ∧
      (∀ t ∈ front, t.Fits source.toList) ∧ ts.Pairwise (fun a b => a.span.stop ≤ b.span.offset) ∧
      List.IsChain (Apart source.toList) (⟨0, 0⟩ :: ts.map (·.span))) ∧
    ∀ error, tokens source = .error error → ∃ before rest front, source.toList = before ++ rest ∧
      Laid rest 0 before front ∧ Stuck (byteCount before) rest error := by
  have hlexed := lexed_tokensFrom 0 source.toList
  constructor
  · intro ts hts
    rw [show tokensFrom 0 0 source.toList = .ok ts from hts] at hlexed
    obtain ⟨front, rfl, hlaid⟩ := hlexed
    rw [Nat.zero_add]
    have hchain := hlaid.chain [] [] ⟨0, 0⟩ (List.append_nil _).symm rfl rfl .nil
    rw [Nat.zero_add] at hchain
    have hspans : (front ++ [(⟨.stop, ⟨byteCount source.toList, 0⟩⟩ : Token)]).map (·.span) =
        front.map (·.span) ++ [⟨byteCount source.toList, 0⟩] := List.map_append
    refine ⟨front, rfl, hlaid.fits [] (List.append_nil _).symm rfl, ?_, by rwa [hspans]⟩
    have hpairwise := (List.pairwise_cons.1 (pairwise_of_isChain hchain)).2
    rw [← hspans] at hpairwise
    exact List.pairwise_map.1 hpairwise
  · intro error herror
    rw [show tokensFrom 0 0 source.toList = .error error from herror] at hlexed
    obtain ⟨before, rest, front, hsource, hlaid, hstuck⟩ := hlexed
    exact ⟨before, rest, front, hsource, hlaid, by rwa [Nat.zero_add] at hstuck⟩

/-- A name and a comment up to the end of the source. -/
theorem tokens_cover_commented :
    ∃ front : List Token,
      [⟨.name "a", ⟨0, 1⟩⟩, ⟨.stop, ⟨4, 0⟩⟩] = front ++ [⟨.stop, ⟨byteCount "a #b".toList, 0⟩⟩] ∧
      (∀ t ∈ front, t.Fits "a #b".toList) ∧
      [(⟨.name "a", ⟨0, 1⟩⟩ : Token), ⟨.stop, ⟨4, 0⟩⟩].Pairwise (fun a b => a.span.stop ≤ b.span.offset) ∧
      List.IsChain (Apart "a #b".toList) [⟨0, 0⟩, ⟨0, 1⟩, ⟨4, 0⟩] :=
  (tokens_cover "a #b").1 _ (by rfl)

end PullScript.Script
