import PullScript.Proofs.Copies.Contents
import PullScript.Proofs.Cutting.Serving
import PullScript.Proofs.Eval.Calls
import PullScript.Proofs.Number.Numerals
import PullScript.Proofs.Text.Reading

namespace PullScript

open Act

theorem Serving.yields_readWhile (more : Bytes → Bool) {parts : List Bytes} {v : Value} (h : Serving v parts) :
    ∃ k v', Serving v' (parts.drop k) ∧ Yields (fun n => readWhile (puller n) more) v [] (parts.take k).flatten v' ∧
      ∀ j < k, more (parts.take j).flatten = true := by
  have hrounds (passed : Nat) (soFar : Bytes) : ∃ k v', Serving v' (parts.drop k) ∧
      Yields (fun n => loop (fun buffer => do
        if !more buffer then return .inr buffer
        if ← (puller n).textEnded then return .inr buffer
        return .inl (buffer ++ (← gathered (puller n).stream))) (n - passed) soFar) v []
        (soFar ++ (parts.take k).flatten) v' ∧
      ∀ j < k, more (soFar ++ (parts.take j).flatten) = true := by
    induction parts generalizing passed soFar v with
    | nil =>
      refine ⟨0, v, h, .done ?_, by simp⟩
      rw [List.take_nil, List.flatten_nil, List.append_nil]
      by_cases hmore : more soFar = true
      · simp only [hmore, Bool.not_true, Bool.false_eq_true, if_false]
        exact h.yields_ended.andThen (.pure _ v)
      · simp only [hmore, Bool.not_false, if_true]
        exact .pure _ v
    | cons part parts ih =>
      by_cases hmore : more soFar = true
      · obtain ⟨v₁, h₁, hstream⟩ := h.yields_stream
        obtain ⟨k, v', hv', hrest, hk⟩ := ih h₁ (passed + 1) (soFar ++ part)
        refine ⟨k + 1, v', hv', ?_, fun j hj => ?_⟩
        · rw [List.take_succ_cons, List.flatten_cons, ← List.append_assoc]
          refine .againQuietly ?_ hrest
          simp only [hmore, Bool.not_true, Bool.false_eq_true, if_false]
          exact h.yields_ended.andThen (hstream.gathered.andThen (.pure _ v₁))
        · cases j with
          | zero => simpa using hmore
          | succ j => simpa using hk j (Nat.lt_of_succ_lt_succ hj)
      · refine ⟨0, v, h, .done ?_, by simp⟩
        simp only [hmore, Bool.not_false, if_true, List.take_zero, List.flatten_nil, List.append_nil]
        exact .pure _ v
  have hkind : Yields (fun _ => requireKind .str) v [] () v := by
    refine .look ?_
    simp only [h.kind_eq, if_true]
    exact .pure () v
  obtain ⟨k, v', hv', hread, hk⟩ := hrounds 0 []
  exact ⟨k, v', hv', hkind.andThen hread, hk⟩

namespace Value

def leadingNumber (text : Value) (known : Option Float) : Value :=
  .suspended "tonum" .num [text] (.calculate .leadingNumber known)

def NumberOf (registry : Registry) (text : Value) (w : World) (x : Float) : Prop :=
  ∃ f, registry.lookup? "tonum" = some f ∧ Calls f [text] (leadingNumber text none) ∧
    (leadingNumber text none).Amounts w x

variable {registry : Registry} {text : Value}

section

variable (hregistry : Registry.standard = .ok registry)
include hregistry

theorem calls_leadingNumber (hkind : text.kind = .str) :
    ∃ f, registry.lookup? "tonum" = some f ∧ Calls f [text] (leadingNumber text none) := by
  have hsig : Ty.parse "Str* -> Num" = .ok (.arrow (.str true) .num) := by cbv
  obtain ⟨doc, hfound⟩ := @Registry.lookup?_of_standard _ hregistry "tonum" _ 1 (.calculate .leadingNumber) _
    (by simp [Catalogue.standard, Catalogue.num]) hsig
  exact ⟨_, hfound, .givenText hkind rfl (.none _)⟩

theorem numberOf_ofLeading (htext : text.Unpulled) {w : World}
    {all : Bytes} (hall : text.Reads w all) : NumberOf registry text w (Number.ofLeading all) := by
  have hwhole := htext.reads_iff.1 hall
  obtain ⟨f, hfound, hcalls⟩ := calls_leadingNumber hregistry (View.kind_of_ask hwhole)
  have hunpulled : (leadingNumber text none).Unpulled := ⟨⟨htext, trivial⟩, rfl⟩
  obtain ⟨least, hleast, heq⟩ := View.gives_front Number.ofLeading hwhole fun soFar extra hstop =>
    Number.ofLeading_append hstop extra
  refine ⟨f, hfound, hcalls, hunpulled.amounts_iff.2 ((View.gives_ask_fitting rfl).2 ?_)⟩
  exact View.Gives.bind (View.gives_arg_iff.2 rfl) (hleast.bind (View.gives_pure_iff.2 heq))

theorem numberOf_decimal {number : Value} (hnumber : number.Unpulled)
    {w : World} {x : Float} (hx : number.Amounts w x) (hfinite : x.isFinite = true)
    (hread : Number.ofText? (Number.toText x) = some x) :
    ∃ f text, registry.lookup? "tostr" = some f ∧ Calls f [number] text ∧ NumberOf registry text w x := by
  have hsig : Ty.parse "Num -> Str" = .ok (.arrow .num (.str false)) := by cbv
  obtain ⟨doc, hfound⟩ := @Registry.lookup?_of_standard _ hregistry "tostr" _ 1 (.render .decimal) _
    (by simp [Catalogue.standard, Catalogue.num]) hsig
  have hgives := hnumber.amounts_iff.1 hx
  have hkind : number.kind = .num := View.kind_of_ask hgives
  have htext (ty : Ty) : (suspended "tostr" ty [number] (.render .decimal {})).Unpulled := ⟨⟨hnumber, trivial⟩, rfl⟩
  have hwhole (ty : Ty) : (suspended "tostr" ty [number] (.render .decimal {})).Reads w
      (Bytes.ofString (Number.toText x)) := by
    refine (htext ty).reads_iff.2 ((View.gives_ask_fitting rfl).2 (TextView.once_whole_gives ?_))
    exact View.Gives.bind (View.Gives.bind (View.gives_arg_iff.2 rfl) hgives) (.pure _)
  have hnumberOf (ty : Ty) := numberOf_ofLeading hregistry (htext ty) (hwhole ty)
  simp only [Number.ofLeading_toText hfinite hread] at hnumberOf
  refine ⟨_, _, hfound, .given (fun _ hstr => ?_) (coerced_num hkind) rfl (.none _), hnumberOf _⟩
  rw [hkind] at hstr
  cases hstr

end

/-- Making a number of a text reads the longest numeral behind the blanks in front, whatever chunks the text comes in,
and no chunk behind the one that shows where it ends. The text of a number that can be read back makes that number. -/
theorem leading_number (hregistry : Registry.standard = .ok registry) :
    (∀ parts w, (chunks parts 0).Unpulled ∧ (chunks parts 0).Reads w parts.flatten) ∧
    (∀ (text : Value) w all, text.Unpulled → text.Reads w all →
      (∀ m, Number.LongestFront m (all.dropWhile Bytes.isBlank) → ∃ x,
        Number.ofText? (String.ofList (Number.digitChars (Number.withoutPoint m))) = some x ∧ NumberOf registry text w x) ∧
      ((∀ m, Number.Numeral m → ¬ m <+: all.dropWhile Bytes.isBlank) → NumberOf registry text w 0)) ∧
    (∀ parts, ∃ f k x text, registry.lookup? "tonum" = some f ∧
      Calls f [chunks parts 0] (leadingNumber (chunks parts 0) none) ∧
      Yields (fun n => (puller n).number) (leadingNumber (chunks parts 0) none) [] x (leadingNumber text (some x)) ∧
      Serving text (parts.drop k) ∧
      ∀ j < k, ∀ b ∈ (parts.take j).flatten.dropWhile Bytes.isBlank, Number.isNumberByte b = true) ∧
    ∀ (number : Value) w x, number.Unpulled → number.Amounts w x → x.isFinite = true →
      Number.ofText? (Number.toText x) = some x →
      ∃ f text, registry.lookup? "tostr" = some f ∧ Calls f [number] text ∧ NumberOf registry text w x := by
  refine ⟨fun parts w => ⟨rfl, reads_chunks parts w⟩, fun text w all htext hall => ⟨fun m hm => ?_, fun hnone => ?_⟩,
    fun parts => ?_, fun number w x hnumber hx => ?_⟩
  · exact ⟨_, Number.ofText?_longestFront hm, numberOf_ofLeading hregistry htext hall⟩
  · exact Number.ofLeading_of_none hnone ▸ numberOf_ofLeading hregistry htext hall
  · obtain ⟨f, hfound, hcalls⟩ := @calls_leadingNumber registry (chunks parts 0) hregistry rfl
    obtain ⟨k, text, htext, hread, hk⟩ := (Serving.chunks parts 0).yields_readWhile Number.mayGoOn
    refine ⟨f, k, Number.ofLeading (parts.take k).flatten, text, hfound, hcalls, ?_, htext, fun j hj b hb => List.all_eq_true.1 (hk j hj) b hb⟩
    have hrun : Yields (fun n => Calculation.run (puller n) .leadingNumber) ⟨"tonum", .num, [chunks parts 0]⟩ []
        (Number.ofLeading (parts.take k).flatten) ⟨"tonum", .num, [text]⟩ :=
      Yields.andThen (Bound.yields_on rfl hread) (.pure _ _)
    exact yields_calculated hrun
  · exact numberOf_decimal hregistry hnumber hx

/-- A numeral that lies across two chunks, behind a blank in another, and a number that is written and read. -/
theorem leading_number_across : ∃ registry, Registry.standard = .ok registry ∧
    (∃ x, Number.ofText? "-1.5" = some x ∧ NumberOf registry (chunks [[32], [45, 49], [46, 53]] 0) {} x) ∧
    ∃ f text, registry.lookup? "tostr" = some f ∧ Calls f [.number 0.1] text ∧ NumberOf registry text {} 0.1 := by
  obtain ⟨registry, hregistry⟩ := Registry.exists_standard
  obtain ⟨hchunks, hnumber, -, hwritten⟩ := leading_number hregistry
  have hfront : Number.LongestFront [45, 49, 46, 53] [45, 49, 46, 53] :=
    ⟨.mk .minus (@Number.Unsigned.pointed [49] [53] (by simp) (by simp [Number.Digits]; decide)
      (by simp [Number.Digits]; decide)), List.prefix_refl _, fun _ _ h => h.length_le⟩
  obtain ⟨x, hx, hof⟩ := (hnumber _ _ _ (hchunks [[32], [45, 49], [46, 53]] {}).1 (hchunks _ _).2).1 _ hfront
  refine ⟨registry, hregistry, ⟨x, hx, hof⟩, hwritten (.number 0.1) {} 0.1 trivial ?_ rfl rfl⟩
  exact (unpulled_number 0.1).amounts_iff.2 ((View.gives_ask_fitting rfl).2 (.pure _))

end Value

end PullScript
