import PullScript.Proofs.Script.Tokens

namespace PullScript.Script

def escapes : List (Char × Char) :=
  [('a', '\x07'), ('b', '\x08'), ('t', '\t'), ('n', '\n'), ('v', '\x0b'), ('f', '\x0c'),
    ('r', '\r'), ('e', '\x1b')]

/-- The ways to write a text between colons. Colons are doubled; a control character is written as it
is or as its escape. -/
inductive Encodes : List Char → List Char → Prop
  | nil : Encodes [] []
  | colon {text encoded : List Char} :
    Encodes text encoded → Encodes (':' :: text) (':' :: ':' :: encoded)
  | escape {letter control : Char} {text encoded : List Char} :
    (letter, control) ∈ escapes → Encodes text encoded →
    Encodes (control :: text) ('\\' :: letter :: encoded)
  | plain {c : Char} {text encoded : List Char} :
    c ≠ ':' → Encodes text encoded → Encodes (c :: text) (c :: encoded)

def Writable (text : List Char) : Prop :=
  ∀ letter control, (letter, control) ∈ escapes → ¬ ['\\', letter] <:+: text

theorem escaped?_eq_some_iff {letter control : Char} :
    escaped? letter = some control ↔ (letter, control) ∈ escapes := by
  constructor
  · intro h
    unfold escaped? at h
    split at h <;> cases h <;> simp [escapes]
  · intro h
    simp only [escapes, List.mem_cons, Prod.mk.injEq, List.not_mem_nil, or_false] at h
    rcases h with ⟨rfl, rfl⟩ | ⟨rfl, rfl⟩ | ⟨rfl, rfl⟩ | ⟨rfl, rfl⟩ | ⟨rfl, rfl⟩ | ⟨rfl, rfl⟩ |
      ⟨rfl, rfl⟩ | ⟨rfl, rfl⟩ <;> rfl

namespace Writable

theorem nil : Writable [] := by
  intro letter control _ hinfix
  simp at hinfix

theorem cons_iff {c : Char} {text : List Char} :
    Writable (c :: text) ↔
      (c = '\\' → ∀ letter ∈ text.head?, escaped? letter = none) ∧ Writable text := by
  constructor
  · intro h
    refine ⟨?_, fun letter control he hin => h letter control he (hin.trans (List.suffix_cons c text).isInfix)⟩
    rintro rfl letter hletter
    rw [Option.eq_none_iff_forall_ne_some]
    intro control hcontrol
    obtain ⟨rest, rfl⟩ := List.head?_eq_some_iff.mp hletter
    exact h letter control (escaped?_eq_some_iff.mp hcontrol) ⟨[], rest, rfl⟩
  · rintro ⟨hback, h⟩ letter control he hin
    obtain hfront | hin := List.infix_cons_iff.mp hin
    · obtain ⟨rfl, rest, rfl⟩ := List.cons_prefix_cons.mp hfront
      have hnone := hback rfl letter rfl
      rw [escaped?_eq_some_iff.mpr he] at hnone
      cases hnone
    · exact h letter control he hin

end Writable

variable {text encoded rest : List Char}

theorem Encodes.escaped?_front {d : Char} (h : Encodes text encoded)
    (htext : ∀ letter ∈ text.head?, escaped? letter = none) (hd : d ∈ (encoded ++ ':' :: rest).head?) :
    escaped? d = none := by
  cases h with
  | nil | colon | escape =>
    cases Option.some.inj hd
    rfl
  | plain =>
    cases Option.some.inj hd
    exact htext d rfl

theorem Encodes.readText_eq (h : Encodes text encoded) (htext : Writable text) (hrest : rest.head? ≠ some ':') :
    readText (encoded ++ ':' :: rest) = some (text, encoded.length + 1) := by
  induction h with
  | nil =>
    rw [List.nil_append, readText]
    · rfl
    · rintro rest' rfl
      exact hrest rfl
  | colon _ ih =>
    simp [readText, ih (Writable.cons_iff.mp htext).2]
  | escape hescape _ ih =>
    simp [readText, escaped?_eq_some_iff.mpr hescape, ih (Writable.cons_iff.mp htext).2]
  | @plain c text encoded hcolon henc ih =>
    obtain ⟨hback, hwritable⟩ := Writable.cons_iff.mp htext
    rw [List.cons_append]
    by_cases hc : c = '\\'
    · subst hc
      obtain ⟨d, behind, hd⟩ := List.exists_cons_of_ne_nil
        (List.append_ne_nil_of_right_ne_nil encoded (List.cons_ne_nil ':' rest))
      have hnone := henc.escaped?_front (hback rfl) (by rw [hd]; rfl)
      have hbehind := ih hwritable
      rw [hd] at hbehind ⊢
      simp [readText, hnone, hbehind]
    · rw [readText, ih hwritable]
      · rfl
      · exact fun _ h _ => hcolon h
      · exact hcolon
      · exact fun _ _ h _ => hc h

/-- The front of a text that was written in these characters is what they start with, unless they
start with a colon or a backslash. -/
theorem Encodes.escaped?_head {c letter : Char} (h : Encodes text encoded) (hc : c ∈ (encoded ++ rest).head?)
    (hnone : escaped? c = none) (hletter : letter ∈ text.head?) : escaped? letter = none := by
  cases h with
  | nil => cases hletter
  | colon =>
    cases Option.some.inj hletter
    rfl
  | escape hescape =>
    cases Option.some.inj hletter
    simp only [escapes, List.mem_cons, Prod.mk.injEq, List.not_mem_nil, or_false] at hescape
    rcases hescape with ⟨_, rfl⟩ | ⟨_, rfl⟩ | ⟨_, rfl⟩ | ⟨_, rfl⟩ | ⟨_, rfl⟩ | ⟨_, rfl⟩ | ⟨_, rfl⟩ |
      ⟨_, rfl⟩ <;> rfl
  | plain =>
    cases Option.some.inj hletter
    cases Option.some.inj hc
    exact hnone

theorem encodes_of_readText {chars : List Char} {length : Nat} (h : readText chars = some (text, length)) :
    ∃ encoded rest,
      chars = encoded ++ ':' :: rest ∧ length = encoded.length + 1 ∧ rest.head? ≠ some ':' ∧
        Encodes text encoded ∧ Writable text := by
  induction chars using readText.induct generalizing text length with
  | case1 => cases h
  | case2 rest ih =>
    rw [readText, Option.map_eq_some_iff] at h
    obtain ⟨⟨inner, n⟩, hinner, ⟨⟩⟩ := h
    obtain ⟨encoded, behind, rfl, rfl, hbehind, henc, hwritable⟩ := ih hinner
    exact ⟨':' :: ':' :: encoded, behind, rfl, rfl, hbehind, .colon henc,
      Writable.cons_iff.mpr ⟨by simp, hwritable⟩⟩
  | case3 rest hnot =>
    rw [readText] at h
    · cases h
      refine ⟨[], rest, rfl, rfl, fun hhead => ?_, .nil, .nil⟩
      obtain ⟨rest', rfl⟩ := List.head?_eq_some_iff.mp hhead
      exact hnot rest' rfl
    · exact hnot
  | case4 letter rest control hescaped ih =>
    simp only [readText, hescaped, Option.map_eq_some_iff] at h
    obtain ⟨⟨inner, n⟩, hinner, ⟨⟩⟩ := h
    obtain ⟨encoded, behind, rfl, rfl, hbehind, henc, hwritable⟩ := ih hinner
    have hcontrol : control ≠ '\\' := by
      rintro rfl
      have he := escaped?_eq_some_iff.mp hescaped
      simp [escapes] at he
    exact ⟨'\\' :: letter :: encoded, behind, rfl, rfl, hbehind,
      .escape (escaped?_eq_some_iff.mp hescaped) henc,
      Writable.cons_iff.mpr ⟨fun h => absurd h hcontrol, hwritable⟩⟩
  | case5 c rest hescaped ih =>
    simp only [readText, hescaped, Option.map_eq_some_iff] at h
    obtain ⟨⟨inner, n⟩, hinner, ⟨⟩⟩ := h
    obtain ⟨encoded, behind, hchars, rfl, hbehind, henc, hwritable⟩ := ih hinner
    have hc : c ∈ (encoded ++ ':' :: behind).head? := by
      rw [← hchars]
      rfl
    refine ⟨'\\' :: encoded, behind, by rw [hchars]; rfl, rfl, hbehind, .plain (by decide) henc, ?_⟩
    exact Writable.cons_iff.mpr ⟨fun _ letter => henc.escaped?_head hc hescaped, hwritable⟩
  | case6 c rest hdoubled hcolon hback ih =>
    rw [readText, Option.map_eq_some_iff] at h
    · obtain ⟨⟨inner, n⟩, hinner, ⟨⟩⟩ := h
      obtain ⟨encoded, behind, rfl, rfl, hbehind, henc, hwritable⟩ := ih hinner
      have hslash : c ≠ '\\' := by
        rintro rfl
        cases encoded with
        | nil => exact hback ':' behind rfl rfl
        | cons d encoded => exact hback d (encoded ++ ':' :: behind) rfl rfl
      exact ⟨c :: encoded, behind, rfl, rfl, hbehind, .plain hcolon henc,
        Writable.cons_iff.mpr ⟨fun h => absurd h hslash, hwritable⟩⟩
    all_goals assumption

/-- The texts that are read, and what they are read from: reading undoes every way of writing a text
between colons, and reads nothing else. -/
theorem readText_eq_some_iff {chars : List Char} {length : Nat} :
    readText chars = some (text, length) ↔ ∃ encoded rest,
      chars = encoded ++ ':' :: rest ∧ length = encoded.length + 1 ∧ rest.head? ≠ some ':' ∧
        Encodes text encoded ∧ Writable text := by
  constructor
  · exact encodes_of_readText
  · rintro ⟨encoded, rest, rfl, rfl, hrest, henc, htext⟩
    exact henc.readText_eq htext hrest

/-- A text written between colons is the first token of the script, and the token lies over exactly
what was written. Whatever is behind is read on from there. -/
theorem tokens_literal {text : String} {encoded rest : List Char} (htext : Writable text.toList)
    (henc : Encodes text.toList encoded) (hrest : rest.head? ≠ some ':') :
    let literal := ':' :: (encoded ++ [':'])
    tokens (String.ofList (literal ++ rest)) =
      (tokensFrom (byteCount literal) 0 rest).map
        (⟨.text text, ⟨0, byteCount literal⟩⟩ :: ·) := by
  intro literal
  have hread : readText (encoded ++ [':'] ++ rest) = some (text.toList, encoded.length + 1) := by
    rw [List.append_assoc]
    exact readText_eq_some_iff.mpr ⟨encoded, rest, rfl, rfl, hrest, henc, htext⟩
  have htoken : readToken ':' (encoded ++ [':'] ++ rest) =
      .ok (.text text, (encoded ++ [':']).length + 1) := by
    rw [readToken, if_pos rfl, hread]
    simp
  have h := tokensFrom_token (encoded ++ [':']) rest (by decide) (by decide) htoken 0
  rw [Nat.zero_add] at h
  rw [tokens, String.toList_ofList]
  exact h

/-- A colon behind a backslash, a tab and a line end written in both ways, and a backslash at the
end. -/
theorem tokens_literal_mixed :
    Writable "\\:\t\t\\\n\n\\".toList ∧
      tokens ":\\::\\t\t\\\\n\n\\:x" =
        .ok [⟨.text "\\:\t\t\\\n\n\\", ⟨0, 13⟩⟩, ⟨.name "x", ⟨13, 1⟩⟩, ⟨.stop, ⟨14, 0⟩⟩] := by
  have htext : Writable "\\:\t\t\\\n\n\\".toList := by
    simp [Writable.cons_iff, Writable.nil, escaped?]
  have henc : Encodes "\\:\t\t\\\n\n\\".toList "\\::\\t\t\\\\n\n\\".toList :=
    .plain (by decide) (.colon (.escape (by decide) (.plain (by decide) (.plain (by decide)
      (.escape (by decide) (.plain (by decide) (.plain (by decide) .nil)))))))
  exact ⟨htext, (tokens_literal htext henc (by decide : ['x'].head? ≠ some ':')).trans (by rfl)⟩

end PullScript.Script
