import Mathlib
import PullScript.Proofs.Ty.Spelling

namespace PullScript.Ty

theorem Derivation.kind_ne_bind {phrase : Phrase} (d : Derivation phrase) : ∀ t ∈ d.tokens, t.kind ≠ .bind := by
  induction d with
  | bare _ ih | plain _ ih => exact ih
  | _ => simp_all [tokens, or_imp]

theorem takeName_tokens (d : Derivation .type) : takeName d.tokens = (none, d.tokens) := by
  have hkinds := d.kind_ne_bind
  generalize d.tokens = ts at hkinds ⊢
  unfold takeName
  split
  next t u rest =>
    have hu := hkinds u (by simp)
    simp [hu]
  next => rfl

theorem parse_toText {ty : Ty} (h : ty.Written) : parse ty.toText = .ok ty := by
  obtain ⟨d, stop, htokens, hd⟩ := (spells_chars ty h).1 0 [] (by simp [WordEnds])
  have hall : tokens ty.toText = d.tokens := by
    simpa [tokens, toText, tokensFrom] using htokens
  have hty := d.reads ty.toText.utf8ByteSize (2 * d.tokens.length + 2) [] (by omega) (notAhead_nil _)
  rw [List.append_nil, hd] at hty
  simp [parse, parseNamed, hall, takeName_tokens d, hty, bind, Except.bind, pure, Except.pure,
    Except.map]

theorem takeName_suffix (ahead : List Token) : (takeName ahead).2 <:+ ahead := by
  unfold takeName
  split
  next t u rest =>
    split
    · exact ⟨[t, u], rfl⟩
    · exact List.suffix_refl _
  next => exact List.suffix_refl _

theorem written_of_parse {text : String} {ty : Ty} (h : parse text = .ok ty) : ty.Written := by
  obtain ⟨name, hnamed⟩ : ∃ name, parseNamed text = .ok (name, ty) := by
    unfold parse at h
    cases hnamed : parseNamed text with
    | error error => simp [hnamed, Except.map] at h
    | ok result =>
      obtain ⟨name, ty'⟩ := result
      simp only [hnamed, Except.map, Except.ok.injEq] at h
      exact ⟨name, by rw [h]⟩
  rw [parseNamed] at hnamed
  simp only at hnamed
  obtain ⟨⟨ty', rest⟩, hread, hbehind⟩ := bind_ok_iff.mp hnamed
  obtain ⟨d, hahead, rfl⟩ := (read_sound _ _).1 _ _ _ hread
  have hproper : ∀ t ∈ d.tokens, t.Proper := by
    intro t ht
    apply tokensFrom_proper text.toList 0 0 t
    apply (takeName_suffix (tokens text)).subset
    rw [hahead]
    exact List.mem_append_left rest ht
  have hwritten := allWritten_singleton.mp (d.allWritten hproper)
  cases rest with
  | nil =>
    cases hbehind
    exact hwritten
  | cons t rest => simp [expected] at hbehind

/-- Types and their texts are inverse to one another: exactly the types that can be written down are
read back from their text, marks included, and every text that can be read gives such a type. -/
theorem parse_toText_eq_ok_iff :
    (∀ ty : Ty, parse ty.toText = .ok ty ↔ ty.Written) ∧
      ∀ (text : String) (ty : Ty), parse text = .ok ty →
        ty.Written ∧ parse ty.toText = .ok ty := by
  refine ⟨fun ty => ⟨written_of_parse, parse_toText⟩, fun text ty h => ?_⟩
  have hwritten := written_of_parse h
  exact ⟨hwritten, parse_toText hwritten⟩

theorem parse_toText_nested :
    let ty : Ty := .arrow
      (.lst [.arrow (.unknown "a") (.str true), .lst [.num, .unknown "b"] true false] true true)
      (.arrow (.arrow (.unknown "c") .num) (.lst [.str false] false false))
    parse "f :: ((a)->Str *,[Num,b]*)* -> (c -> Num) -> [(Str)]" = .ok ty ∧ ty.Written ∧
      ty.toText = "(a -> Str*, [Num, b]*)* -> (c -> Num) -> [Str]" ∧
      parse ty.toText = .ok ty := by
  intro ty
  have hparse : parse "f :: ((a)->Str *,[Num,b]*)* -> (c -> Num) -> [(Str)]" = .ok ty := by cbv
  obtain ⟨hwritten, hback⟩ := parse_toText_eq_ok_iff.2 _ ty hparse
  exact ⟨hparse, hwritten, by cbv, hback⟩

end PullScript.Ty
