import Mathlib.Data.List.TakeWhile
import PullScript.Proofs.Ty.Grammar

namespace PullScript.Ty

mutual

/-- Types that can be written down: their unknowns have names of lowercase letters, their lists at
least one element type and their tuples at least two. -/
def Written : Ty → Prop
  | unknown name => name.toList ≠ [] ∧ ∀ c ∈ name.toList, isLower c
  | num => True
  | str _ => True
  | lst elements _ tuple => (if tuple then 2 else 1) ≤ elements.length ∧ AllWritten elements
  | arrow arg result => arg.Written ∧ result.Written

def AllWritten : List Ty → Prop
  | [] => True
  | ty :: rest => ty.Written ∧ AllWritten rest

end

theorem written_withEndless {ty : Ty} (h : ty.Written) (endless : Bool) :
    (ty.withEndless endless).Written := by
  cases ty <;> simp_all [withEndless, Written]

def Token.Proper (t : Token) : Prop :=
  t.kind = .name → t.text ≠ [] ∧ ∀ c ∈ t.text, isLower c

theorem allWritten_singleton {ty : Ty} : AllWritten [ty] ↔ ty.Written := by
  simp [AllWritten]

theorem Derivation.allWritten {phrase : Phrase} (d : Derivation phrase) (hts : ∀ t ∈ d.tokens, t.Proper) :
    AllWritten (phrase.types d.meaning) := by
  induction d with
  | name t ht =>
    rw [Phrase.types, allWritten_singleton]
    simpa [meaning, Written] using hts t (by simp [tokens]) ht
  | num | str => simp [Phrase.types, meaning, AllWritten, Written]
  | group _ _ _ _ _ ih => exact ih fun t ht => hts t (by simp [tokens, ht])
  | tuple _ _ _ _ _ _ _ _ _ ih ihSecond ihOthers =>
    have hfirst := ih fun t ht => hts t (by simp [tokens, ht])
    have hsecond := ihSecond fun t ht => hts t (by simp [tokens, ht])
    have hothers := ihOthers fun t ht => hts t (by simp [tokens, ht])
    simp_all [Phrase.types, meaning, AllWritten, Written]
  | list _ _ _ _ _ _ ih ihOthers =>
    have hfirst := ih fun t ht => hts t (by simp [tokens, ht])
    have hothers := ihOthers fun t ht => hts t (by simp [tokens, ht])
    simp_all [Phrase.types, meaning, AllWritten, Written]
  | bare _ ih | plain _ ih => exact ih hts
  | starred part _ _ ih =>
    have hpart := allWritten_singleton.mp (ih fun t ht => hts t (by simp [tokens, ht]))
    rw [Phrase.types, allWritten_singleton, meaning, ← withEndless_true]
    exact written_withEndless hpart true
  | arrow _ _ _ _ ihArg ihResult =>
    have harg := allWritten_singleton.mp (ihArg fun t ht => hts t (by simp [tokens, ht]))
    have hresult := allWritten_singleton.mp (ihResult fun t ht => hts t (by simp [tokens, ht]))
    exact allWritten_singleton.mpr ⟨harg, hresult⟩
  | noOthers => trivial
  | other _ _ _ _ ih ihOthers =>
    have hfirst := allWritten_singleton.mp (ih fun t ht => hts t (by simp [tokens, ht]))
    exact ⟨hfirst, ihOthers fun t ht => hts t (by simp [tokens, ht])⟩

theorem take_word (c : Char) (rest : List Char) :
    (c :: rest).take (1 + (rest.takeWhile isLower).length) = c :: rest.takeWhile isLower := by
  rw [Nat.add_comm, List.take_succ_cons,
    ← List.prefix_iff_eq_take.mp (List.takeWhile_prefix isLower)]

theorem frontToken_of_lower {c : Char} (rest : List Char) (hc : isLower c) :
    frontToken c rest = (.name, 1 + (rest.takeWhile isLower).length) := by
  simp [frontToken, hc]

theorem singleKind_ne_name (c : Char) : singleKind c ≠ .name := by
  unfold singleKind
  split <;> simp

theorem isLower_of_frontToken_name {c : Char} {rest : List Char} {length : Nat}
    (h : frontToken c rest = (.name, length)) : isLower c := by
  unfold frontToken at h
  split at h
  · assumption
  · split at h
    · simp at h
    · split at h
      · simp at h
      · simp at h
      · exact absurd (congrArg Prod.fst h) (singleKind_ne_name c)

theorem tokensFrom_proper (chars : List Char) (offset skip : Nat) :
    ∀ t ∈ tokensFrom offset skip chars, t.Proper := by
  induction chars generalizing offset skip with
  | nil => simp [tokensFrom]
  | cons c rest ih =>
    cases skip with
    | succ skip => exact ih _ _
    | zero =>
      rw [tokensFrom]
      split
      · exact ih _ _
      · rcases hfront : frontToken c rest with ⟨kind, length⟩
        intro t ht
        obtain rfl | ht := List.mem_cons.mp ht
        · rintro rfl
          have hc := isLower_of_frontToken_name hfront
          obtain rfl : 1 + (rest.takeWhile isLower).length = length := by
            simpa [frontToken_of_lower rest hc] using hfront
          simp only [take_word]
          refine ⟨by simp, fun d hd => ?_⟩
          obtain rfl | hd := List.mem_cons.mp hd
          · exact hc
          · exact List.mem_takeWhile_imp hd
        · exact ih _ _ t ht

end PullScript.Ty
