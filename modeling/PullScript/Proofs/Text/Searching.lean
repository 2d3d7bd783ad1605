import PullScript.Proofs.Eval.Calls
import PullScript.Proofs.Text.Reading

namespace PullScript

open Act

namespace View

variable {feed : Feed} {b : Bound} {needle text : Value} {sought all : Bytes}

theorem gives_search (h : (ask text .whole).Gives feed all) (sought : Bytes) :
    (search text sought).Gives feed (Bytes.occursIn sought all) := by
  obtain ⟨last, hends⟩ := TextView.exists_ends_of_ask h
  obtain ⟨least, hleast, heq⟩ := hends.readUntil (Bytes.occursIn sought) (Bytes.occursIn sought) fun soFar more hfound => by
    rw [hfound, Bytes.occursIn_append hfound]
  rw [← heq]
  exact (gives_require_iff.2 (kind_of_ask h)).bind (hleast.bind (.pure _))

theorem gives_argBytes {k : Nat} (hk : b.args[k]? = some text) (h : (ask text .whole).Gives feed all) :
    (argBytes b k).Gives feed all :=
  Gives.bind (gives_arg_iff.2 hk) h

end View

theorem truth_eq {found : Bool} {p : Prop} [Decidable p] (h : found = true ↔ p) : truth found = if p then 1 else 0 := by
  simp only [truth, h]

namespace Calculation

open View

variable {feed : Feed} {b : Bound} {text : Value} {sought all : Bytes}
  (hneedle : (argBytes b 0).Gives feed sought) (hk : b.args[1]? = some text) (htext : (ask text .whole).Gives feed all)
include hneedle hk htext

theorem gives_contains : (view b .contains).Gives feed (if sought <:+: all then 1 else 0) := by
  refine hneedle.bind ?_
  cases sought with
  | nil => exact gives_pure_iff.2 (if_pos List.nil_infix).symm
  | cons byte rest =>
    refine Gives.bind (gives_arg_iff.2 hk) ((gives_search htext _).bind (gives_pure_iff.2 ?_))
    exact truth_eq Bytes.occursIn_iff_infix

theorem gives_startsWith : (view b .startsWith).Gives feed (if sought <+: all then 1 else 0) := by
  -- Where there are as many bytes as are sought, more of them make no difference.
  have hstable (soFar more : Bytes) (hlong : decide (soFar.length < sought.length) = false) :
      sought.isPrefixOf (soFar ++ more) = sought.isPrefixOf soFar :=
    Bytes.isPrefixOf_append (by simpa using hlong) more
  obtain ⟨least, hleast, heq⟩ := gives_front sought.isPrefixOf htext hstable
  refine hneedle.bind (Gives.bind (gives_arg_iff.2 hk) (hleast.bind (gives_pure_iff.2 ?_)))
  rw [heq]
  exact truth_eq List.isPrefixOf_iff_prefix

theorem gives_endsWith : (view b .endsWith).Gives feed (if sought <:+ all then 1 else 0) :=
  hneedle.bind ((gives_argBytes hk htext).bind (gives_pure_iff.2 (truth_eq List.isSuffixOf_iff_suffix)))

end Calculation

namespace Value

variable {registry : Registry} {needle text : Value} {w : World} {sought all : Bytes} {name : String} {c : Calculation}

def Finds (registry : Registry) (name : String) (needle text : Value) (w : World) (x : Float) : Prop :=
  ∃ f result, registry.lookup? name = some f ∧ Calls f [needle, text] result ∧ result.Amounts w x

theorem finds_of_view (hregistry : Registry.standard = .ok registry) (hneedle : needle.Unpulled) (htext : text.Unpulled)
    (hsought : needle.Reads w sought) (hall : text.Reads w all)
    (hbuiltin : ∃ module ∈ Catalogue.standard, ∃ builtin ∈ module.builtins,
      builtin.name = name ∧ builtin.signature = "Str -> Str* -> Num" ∧ builtin.arity = 2 ∧ builtin.job = .calculate c)
    {x : Float} (hview : ∀ b : Bound, (View.argBytes b 0).Gives w.feed sought → b.args[1]? = some text →
      (View.ask text .whole).Gives w.feed all → (c.view b).Gives w.feed x) :
    Finds registry name needle text w x := by
  have hsig : Ty.parse "Str -> Str* -> Num" = .ok (.arrow (.str false) (.arrow (.str true) .num)) := by cbv
  obtain ⟨doc, hfound⟩ := Registry.lookup?_of_standard hregistry hbuiltin hsig
  have hsought' := hneedle.copy.reads_iff.1 (hneedle.reads_copy_iff.2 hsought)
  have hall' := htext.reads_iff.1 hall
  have hunpulled : (suspended name .num [needle.copy, text] (.calculate c none)).Unpulled :=
    ⟨⟨hneedle.copy, htext, trivial⟩, rfl⟩
  have hkind : needle.kind = .str := (kind_copy needle).symm.trans (View.kind_of_ask hsought')
  refine ⟨_, .suspended name .num [needle.copy, text] (.calculate c none), hfound, .givenText hkind rfl
    (.givenText (View.kind_of_ask hall') rfl (.none _)), hunpulled.amounts_iff.2 ((View.gives_ask_fitting rfl).2 ?_)⟩
  exact hview _ (View.gives_argBytes rfl hsought') rfl hall'

/-- Searching while a text is streamed finds what there is to find in the whole text: whether the bytes that are sought
occur somewhere, at the front or at the end. It does not matter in which chunks the texts come; texts that are known up
front come in any. -/
theorem search_whole (hregistry : Registry.standard = .ok registry) :
    (∀ parts w, (chunks parts 0).Unpulled ∧ (chunks parts 0).Reads w parts.flatten) ∧
    ∀ needle text : Value, needle.Unpulled → text.Unpulled → ∀ w sought all, needle.Reads w sought → text.Reads w all →
      Finds registry "contains" needle text w (if sought <:+: all then 1 else 0) ∧
      Finds registry "startswith" needle text w (if sought <+: all then 1 else 0) ∧
      Finds registry "endswith" needle text w (if sought <:+ all then 1 else 0) := by
  refine ⟨fun parts w => ⟨rfl, reads_chunks parts w⟩, fun needle text hneedle htext w sought all hsought hall => ?_⟩
  refine ⟨?_, ?_, ?_⟩
  · exact finds_of_view hregistry hneedle htext hsought hall (by simp [Catalogue.standard, Catalogue.text])
      fun _ => Calculation.gives_contains
  · exact finds_of_view hregistry hneedle htext hsought hall (by simp [Catalogue.standard, Catalogue.text])
      fun _ => Calculation.gives_startsWith
  · exact finds_of_view hregistry hneedle htext hsought hall (by simp [Catalogue.standard, Catalogue.text])
      fun _ => Calculation.gives_endsWith

/-- An occurrence that lies across three chunks, one of them empty. -/
theorem search_whole_across : ∃ registry, Registry.standard = .ok registry ∧
    Finds registry "contains" (.textOf [97, 98, 97]) (.chunks [[97], [97, 98], [], [97, 99]] 0) {} 1 ∧
    Finds registry "startswith" (.textOf [97, 98, 97]) (.chunks [[97], [97, 98], [], [97, 99]] 0) {} 0 ∧
    Finds registry "endswith" (.textOf [97, 98, 97]) (.chunks [[97], [97, 98], [], [97, 99]] 0) {} 0 := by
  obtain ⟨registry, hregistry⟩ := Registry.exists_standard
  obtain ⟨hchunks, hfinds⟩ := search_whole hregistry
  obtain ⟨htext, hreads⟩ := hchunks [[97], [97, 98], [], [97, 99]] {}
  exact ⟨registry, hregistry, hfinds _ _ (unpulled_textOf _) htext {} _ _ (reads_textOf _ _) hreads⟩

end Value

end PullScript
