import Mathlib.Data.List.Chain
import PullScript.Text.Words

namespace PullScript.Text

/-- Characters that make up a word: there are some, and none of them is blank. -/
def IsWord (word : List Char) : Prop :=
  word ≠ [] ∧ ∀ c ∈ word, isBlank c = false

theorem isWord_of_mem_wordsFrom {run chars word : List Char} (hrun : ∀ c ∈ run, isBlank c = false)
    (h : word ∈ wordsFrom run chars) : IsWord word := by
  fun_induction wordsFrom run chars with
  | case1 => simp at h
  | case2 run hempty =>
    obtain rfl := List.mem_singleton.1 h
    exact ⟨by simpa using hempty, by simpa using hrun⟩
  | case3 run c rest _ _ ih => exact ih (by simp) h
  | case4 run c rest _ hempty ih =>
    obtain rfl | h := List.mem_cons.1 h
    · exact ⟨by simpa using hempty, by simpa using hrun⟩
    · exact ih (by simp) h
  | case5 run c rest hblank ih => exact ih (by simpa [hblank] using hrun) h

theorem isWord_of_mem_words {text word : String} (h : word ∈ words text) : IsWord word.toList := by
  obtain ⟨chars, hchars, rfl⟩ := List.mem_map.1 h
  rw [String.toList_ofList]
  exact isWord_of_mem_wordsFrom (by simp) hchars

theorem wordsFrom_append {word : List Char} (hword : ∀ c ∈ word, isBlank c = false) (run rest : List Char) :
    wordsFrom run (word ++ rest) = wordsFrom (word.reverse ++ run) rest := by
  induction word generalizing run with
  | nil => rfl
  | cons c word ih =>
    obtain ⟨hc, hword⟩ := List.forall_mem_cons.1 hword
    simp [wordsFrom, hc, ih hword]

/-- Words on one line. -/
def lineOf (ws : List String) : String :=
  " ".intercalate ws

theorem words_lineOf {ws : List String} (h : ∀ word ∈ ws, IsWord word.toList) : words (lineOf ws) = ws := by
  induction ws with
  | nil => rfl
  | cons word ws ih =>
    obtain ⟨⟨hne, hword⟩, hws⟩ := List.forall_mem_cons.1 h
    have hlast := wordsFrom_append hword [] []
    cases ws with
    | nil => simp_all [words, lineOf, wordsFrom]
    | cons next ws =>
      have hblank : isBlank ' ' = true := rfl
      have hline : (lineOf (word :: next :: ws)).toList = word.toList ++ ' ' :: (lineOf (next :: ws)).toList := by
        simp [lineOf]
      rw [words, hline, wordsFrom_append hword]
      simpa [wordsFrom, hblank, hne, words] using ih hws

theorem lineOf_append {ws vs : List String} (hws : ws ≠ []) (hvs : vs ≠ []) :
    lineOf (ws ++ vs) = lineOf ws ++ " " ++ lineOf vs :=
  String.intercalate_append_of_ne_nil hws hvs

theorem size_joined (line word : String) :
    (line ++ " " ++ word).utf8ByteSize = line.utf8ByteSize + 1 + word.utf8ByteSize := by
  have hblank : " ".utf8ByteSize = 1 := by decide
  simp [hblank]

theorem size_lineOf_concat {ws : List String} (hws : ws ≠ []) (word : String) :
    (lineOf (ws ++ [word])).utf8ByteSize = (lineOf ws).utf8ByteSize + 1 + word.utf8ByteSize := by
  rw [lineOf_append hws (by simp), size_joined]
  rfl

theorem size_lineOf_le_of_infix {ws vs : List String} (h : ws <:+: vs) :
    (lineOf ws).utf8ByteSize ≤ (lineOf vs).utf8ByteSize := by
  obtain rfl | hws := eq_or_ne ws []
  · exact Nat.zero_le _
  obtain ⟨before, after, rfl⟩ := h
  have hfront : (lineOf ws).utf8ByteSize ≤ (lineOf (before ++ ws)).utf8ByteSize := by
    obtain rfl | hbefore := eq_or_ne before []
    · exact Nat.le_refl _
    · rw [lineOf_append hbefore hws]
      simp
  obtain rfl | hafter := eq_or_ne after []
  · simpa using hfront
  · rw [lineOf_append (by simp [hws]) hafter]
    simp only [String.utf8ByteSize_append]
    omega

/-- Words may stand on one line: the line is within the width, or there is a single word. -/
def FitsLine (width : Nat) (ws : List String) : Prop :=
  (lineOf ws).utf8ByteSize ≤ width ∨ ws.length = 1

/-- The words of the lines that `fillLines` gives, where the line under construction has the words `line`. -/
def fillWords (width : Nat) (line : List String) : List String → List (List String)
  | [] => [line]
  | word :: rest =>
    if (lineOf line).utf8ByteSize + 1 + word.utf8ByteSize ≤ width then fillWords width (line ++ [word]) rest
    else line :: fillWords width [word] rest

section

variable {width : Nat} {line rest : List String}

theorem fillLines_eq (hline : line ≠ []) :
    fillLines width (lineOf line) rest = (fillWords width line rest).map lineOf := by
  fun_induction fillWords width line rest with
  | case1 line => rfl
  | case2 line word rest hfits ih =>
    rw [fillLines, if_pos hfits, ← ih (by simp), lineOf_append hline (by simp)]
    rfl
  | case3 line word rest hfits ih =>
    rw [fillLines, if_neg hfits, List.map_cons, ← ih (by simp)]
    rfl

theorem flatten_fillWords (width : Nat) (line rest : List String) :
    (fillWords width line rest).flatten = line ++ rest := by
  fun_induction fillWords width line rest <;> simp_all

theorem fillWords_fits (hline : line ≠ []) (h : FitsLine width line) :
    ∀ ws ∈ fillWords width line rest, FitsLine width ws := by
  fun_induction fillWords width line rest with
  | case1 line => simpa using h
  | case2 line word rest hfits ih => exact ih (by simp) (.inl (size_lineOf_concat hline word ▸ hfits))
  | case3 line word rest hfits ih => exact List.forall_mem_cons.2 ⟨h, ih (by simp) (.inr rfl)⟩

/-- The first word of the next line would not fit on a line any more. -/
def FullBefore (width : Nat) (ws next : List String) : Prop :=
  ∃ word ∈ next.head?, width < (lineOf ws ++ " " ++ word).utf8ByteSize

theorem exists_fillWords_eq_cons (width : Nat) (line rest : List String) :
    ∃ more others, fillWords width line rest = (line ++ more) :: others := by
  fun_induction fillWords width line rest with
  | case1 line => exact ⟨[], [], by simp⟩
  | case2 line word rest hfits ih =>
    obtain ⟨more, others, heq⟩ := ih
    exact ⟨word :: more, others, by simp [heq]⟩
  | case3 line word rest hfits ih => exact ⟨[], fillWords width [word] rest, by simp⟩

theorem isChain_fillWords : (fillWords width line rest).IsChain (FullBefore width) := by
  fun_induction fillWords width line rest with
  | case1 line => exact .singleton _
  | case2 line word rest hfits ih => exact ih
  | case3 line word rest hfits ih =>
    obtain ⟨more, others, heq⟩ := exists_fillWords_eq_cons width [word] rest
    rw [heq] at ih ⊢
    exact .cons_cons ⟨word, rfl, size_joined .. ▸ Nat.lt_of_not_le hfits⟩ ih

/-- No division has fewer lines than filling gives, even if it has more words to start with. When filling starts a new
line, the first line of the division ends no later. -/
theorem length_fillWords_le {before : List String} {division : List (List String)} (hline : line ≠ [])
    (hwords : division.flatten = before ++ line ++ rest) (hfits : ∀ ws ∈ division, FitsLine width ws) :
    (fillWords width line rest).length ≤ division.length := by
  fun_induction fillWords width line rest generalizing before division with
  | case1 line =>
    obtain _ | ⟨first, others⟩ := division
    · simp [hline] at hwords
    · simp
  | case2 line word rest _ ih => exact ih (by simp) (by simpa using hwords) hfits
  | case3 line word rest hfull ih =>
    obtain _ | ⟨first, others⟩ := division
    · simp [hline] at hwords
    obtain ⟨hfirst, hothers⟩ := List.forall_mem_cons.1 hfits
    rw [List.flatten_cons] at hwords
    obtain ⟨left, -, hrest⟩ | ⟨more, hmore, hrest⟩ := List.append_eq_append_iff.1 hwords
    · have hleft : others.flatten = left ++ [word] ++ rest := by simpa using hrest
      exact Nat.succ_le_succ (ih (by simp) hleft hothers)
    · obtain _ | ⟨next, more⟩ := more
      · have hnone : others.flatten = [] ++ [word] ++ rest := by simpa using hrest.symm
        exact Nat.succ_le_succ (ih (by simp) hnone hothers)
      · obtain ⟨rfl, -⟩ := List.cons.inj hrest
        have hinfix : line ++ [word] <:+: first := ⟨before, more, by simp [hmore]⟩
        have hsize := size_lineOf_concat hline word ▸ size_lineOf_le_of_infix hinfix
        have hlength := hinfix.length_le
        have hpos := List.length_pos_iff.2 hline
        rw [List.length_append, List.length_singleton] at hlength
        obtain hwidth | hsingle := hfirst <;> omega

end

/-- Word wrapping is faithful and as short as possible: the words of the lines are those of the text, in order; a line
is within the width or a single word, and would not be with the first word of the next line; and no other division of
the words into such lines has fewer lines. -/
theorem wrapWords_shortest (width : Nat) (text : String) :
    (wrapWords width text).flatMap words = words text ∧
      (∀ line ∈ wrapWords width text, line.utf8ByteSize ≤ width ∨ words line = [line]) ∧
      (wrapWords width text).IsChain (fun line next =>
        ∃ word ∈ (words next).head?, width < (line ++ " " ++ word).utf8ByteSize) ∧
      ∀ division : List (List String), division.flatten = words text →
        (∀ ws ∈ division, (" ".intercalate ws).utf8ByteSize ≤ width ∨ ws.length = 1) →
        (wrapWords width text).length ≤ division.length := by
  unfold wrapWords
  cases hwords : words text with
  | nil => simp
  | cons word rest =>
    dsimp only
    have hlines : fillLines width word rest = (fillWords width [word] rest).map lineOf :=
      fillLines_eq (List.cons_ne_nil word [])
    have hflatten := flatten_fillWords width [word] rest
    have hback : ∀ ws ∈ fillWords width [word] rest, words (lineOf ws) = ws := by
      refine fun ws hws => words_lineOf fun w hw => isWord_of_mem_words (?_ : w ∈ words text)
      rw [hwords, ← List.singleton_append, ← hflatten]
      exact List.mem_flatten.2 ⟨ws, hws, hw⟩
    rw [hlines]
    refine ⟨?_, ?_, ?_, fun division hall hfits => ?_⟩
    · have hmap : (fillWords width [word] rest).map (words ∘ lineOf) = fillWords width [word] rest :=
        (List.map_congr_left hback).trans (List.map_id' _)
      rw [List.flatMap_def, List.map_map, hmap, hflatten]
      rfl
    · intro line hline
      obtain ⟨ws, hws, rfl⟩ := List.mem_map.1 hline
      obtain hwidth | hsingle := fillWords_fits (List.cons_ne_nil word []) (.inr rfl) ws hws
      · exact .inl hwidth
      · obtain ⟨only, rfl⟩ := List.length_eq_one_iff.1 hsingle
        exact .inr (hback _ hws)
    · rw [List.isChain_map]
      refine isChain_fillWords.imp_of_mem_imp fun ws next _ hnext hfull => ?_
      rw [hback next hnext]
      exact hfull
    · rw [List.length_map]
      exact length_fillWords_le (List.cons_ne_nil word []) (show division.flatten = [] ++ [word] ++ rest from hall) hfits

/-- A line that is as long as the width, and a word that is too long for it. -/
theorem wrapWords_shortest_long :
    wrapWords 5 "to  be\nor-not-to be" = ["to be", "or-not-to", "be"] ∧
      3 ≤ [["to", "be"], ["or-not-to"], ["be"]].length := by
  have hlines : wrapWords 5 "to  be\nor-not-to be" = ["to be", "or-not-to", "be"] := by decide
  have hshortest := (wrapWords_shortest 5 "to  be\nor-not-to be").2.2.2 [["to", "be"], ["or-not-to"], ["be"]]
    (by decide) (by decide)
  rw [hlines] at hshortest
  exact ⟨hlines, hshortest⟩

end PullScript.Text
