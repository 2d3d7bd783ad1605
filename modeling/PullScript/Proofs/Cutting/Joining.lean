import PullScript.Proofs.Cutting.Splitting
import PullScript.Proofs.Eval.Calls
import PullScript.Proofs.View.Built

namespace PullScript

open Act

variable {piece bytes : Bytes} {registry : Registry}

namespace Joiner

variable {separator : Bytes} {source : Value} {item : Option Value} {pieces : List Bytes}

inductive Idle : Option Value → Prop where
  | missing : Idle none
  | streamed {item : Value} : Serving item [] → Idle (some item)

theorem Idle.yields_itemGoesOn (h : Idle item) (started : Bool) (source : Value) :
    Yields (fun fuel => itemGoesOn (puller fuel)) (⟨separator, item, started⟩, source) [] false
      (⟨separator, item, started⟩, source) := by
  refine .look ?_
  cases h with
  | missing => exact .pure _ _
  | streamed hitem => exact (hitem.yields_ended.within _).andThen (.pure _ _)

theorem Idle.yields_ended (h : Idle item) (started : Bool) (hsource : Offering source pieces) :
    ∃ source', Offering source' pieces ∧
      Yields (fun fuel => ended (puller fuel)) (⟨separator, item, started⟩, source) [] pieces.isEmpty
        (⟨separator, item, started⟩, source') := by
  obtain ⟨source', hsource', hended⟩ := hsource.yields_ended
  exact ⟨source', hsource', (h.yields_itemGoesOn started source).andThen (hended.onSecond _)⟩

theorem yields_begin {item : Value} (h : Yields (fun fuel => (puller fuel).stream) (.textOf piece) piece () item)
    (separator : Bytes) (started : Bool) (source : Value) :
    Yields (fun fuel => (do
      change fun (joiner, source) => ({ joiner with started := true }, source)
      let text ← coerce (puller fuel) (.textOf piece) (.str false)
      let ((), text) ← aside text (puller fuel).stream
      change fun (joiner, source) => ({ joiner with item := some text }, source) : Act (Joiner Value × Value) Unit))
      (⟨separator, none, started⟩, source) piece () (⟨separator, some item, true⟩, source) :=
  (Yields.change _ _).andThen ((Yields.pure _ _).andThen ((h.aside _).andQuietly (.change _ _)))

theorem Idle.yields_stream (h : Idle item) (started : Bool) (hsource : Offering source (piece :: pieces)) :
    ∃ item' source', Idle item' ∧ Offering source' pieces ∧
      Yields (fun fuel => stream (puller fuel)) (⟨separator, item, started⟩, source)
        ((if started then separator else []) ++ piece) () (⟨separator, item', true⟩, source') := by
  obtain ⟨source', hsource', hnext⟩ := hsource.yields_next
  obtain ⟨item', hitem', hpiece⟩ := (Serving.text piece).yields_stream
  have hbegin := yields_begin hpiece separator started source'
  refine ⟨some item', source', .streamed hitem', hsource', (h.yields_itemGoesOn started source).andThen ?_⟩
  refine (Yields.change _ _).andThen ((hnext.onSecond _).andThen (.look ?_))
  cases started with
  | true => exact (Yields.write separator _).bind hbegin
  | false => exact hbegin

/-- A joiner for two arguments, which is there once the separator has been read. -/
inductive Due (separator : Bytes) : Bound × Option (Joiner Value) → Bool → List Bytes → Prop where
  | unread {name : String} {ty : Ty} {first source : Value} {pieces : List Bytes} :
    Given first separator → Offering source pieces → Due separator (⟨name, ty, [first, source]⟩, none) false pieces
  | read {name : String} {ty : Ty} {first source : Value} {item : Option Value} {started : Bool}
    {pieces : List Bytes} : Idle item → Offering source pieces →
      Due separator (⟨name, ty, [first, source]⟩, some ⟨separator, item, started⟩) started pieces

namespace Due

variable {s : Bound × Option (Joiner Value)} {started : Bool}

theorem yields_ofArgs {α : Type} {a : α} {act : Nat → Act (Joiner Value × Value) α} {started' : Bool}
    {pieces' : List Bytes} (h : Due separator s started pieces)
    (hact : ∀ {item source}, Idle item → Offering source pieces → ∃ item' source', Idle item' ∧
      Offering source' pieces' ∧
      Yields act (⟨separator, item, started⟩, source) bytes a (⟨separator, item', started'⟩, source')) :
    ∃ s', Due separator s' started' pieces' ∧ Yields (fun fuel => ofArgs (puller fuel) (act fuel)) s bytes a s' := by
  cases h with
  | @unread name ty first source _ hfirst hsource =>
    obtain ⟨first', hread⟩ := hfirst.yields_readAll
    obtain ⟨item', source', hitem', hsource', hrun⟩ := hact .missing hsource
    refine ⟨(⟨name, ty, [first', source']⟩, some ⟨separator, item', started'⟩), .read hitem' hsource', .look ?_⟩
    refine ((Bound.yields_on rfl hread).onFirst _).andThen ((Yields.change _ _).andThen ?_)
    exact ((Bound.yields_arg rfl).onFirst _).andThen (.look (hrun.within _))
  | @read name ty first source item _ _ hitem hsource =>
    obtain ⟨item', source', hitem', hsource', hrun⟩ := hact hitem hsource
    refine ⟨(⟨name, ty, [first, source']⟩, some ⟨separator, item', started'⟩), .read hitem' hsource', .look ?_⟩
    exact ((Bound.yields_arg rfl).onFirst _).andThen (.look (hrun.within _))

theorem yields_ended (h : Due separator s started pieces) :
    ∃ s', Due separator s' started pieces ∧
      Yields (fun fuel => ofArgs (puller fuel) (ended (puller fuel))) s [] pieces.isEmpty s' := by
  refine h.yields_ofArgs fun {item source} hitem hsource => ?_
  obtain ⟨source', hsource', hended⟩ := hitem.yields_ended started hsource
  exact ⟨item, source', hitem, hsource', hended⟩

theorem yields_stream (h : Due separator s started (piece :: pieces)) :
    ∃ s', Due separator s' true pieces ∧
      Yields (fun fuel => ofArgs (puller fuel) (stream (puller fuel))) s
        ((if started then separator else []) ++ piece) () s' :=
  h.yields_ofArgs fun hitem hsource => hitem.yields_stream started hsource

theorem yields_drain (passed : Nat) (h : Due separator s started pieces) :
    ∃ s', Yields (fun fuel => loop (fun () => do
        if ← ofArgs (puller fuel) (ended (puller fuel)) then return .inr ()
        ofArgs (puller fuel) (stream (puller fuel))
        return .inl ()) (fuel - passed) ()) s (left separator started pieces) () s' := by
  obtain ⟨s₁, hs₁, hended⟩ := h.yields_ended
  induction pieces generalizing s s₁ started passed with
  | nil =>
    have hleft : left separator started [] = [] := by cases started <;> rfl
    rw [hleft]
    exact ⟨s₁, .done (hended.andThen (.pure _ _))⟩
  | cons piece pieces ih =>
    obtain ⟨s₂, hs₂, hstream⟩ := hs₁.yields_stream
    obtain ⟨s₃, hs₃, hended'⟩ := hs₂.yields_ended
    obtain ⟨s', hrest⟩ := ih (passed + 1) hs₂ s₃ hs₃ hended'
    rw [left_cons]
    exact ⟨s', .again (hended.andThen (hstream.andQuietly (.pure _ _))) hrest⟩

end Due

end Joiner

theorem Given.coerce_eq {v : Value} (h : Given v bytes) {σ : Type} [Holder σ] (p : Puller) (endless : Bool) :
    (coerce p v (.str endless) : Act σ Value) = Pure.pure v := by
  cases h <;> rfl

theorem calls_split (h : Registry.standard = .ok registry) {separator text : Bytes} {pieces : List Bytes}
    {first source : Value} (hseparator : separator ≠ []) (hcuts : Bytes.Cuts separator text pieces)
    (hfirst : Given first separator) (hsource : Given source text) :
    ∃ f split, registry.lookup? "split" = some f ∧ Calls f [first, source] split ∧ Offering split pieces ∧
      split.ty = .lst [.str false] false false := by
  have hsig : Ty.parse "Str -> Str* -> [Str*]*" =
      .ok (.arrow (.str false) (.arrow (.str true) (.lst [.str true] true false))) := by cbv
  obtain ⟨doc, hfound⟩ : ∃ doc, registry.lookup? "split" =
      some (.head ⟨"split", "Str -> Str* -> [Str*]*", 2, doc, .split⟩ _) :=
    Registry.lookup?_of_standard h (by simp [Catalogue.standard, Catalogue.text]) hsig
  obtain ⟨ahead, hserving, rfl⟩ := hsource.serving
  have hcalls : Calls (.head ⟨"split", "Str -> Str* -> [Str*]*", 2, doc, .split⟩
      (.arrow (.str false) (.arrow (.str true) (.lst [.str true] true false)))) [first, source]
      (.suspended "split" (.lst [.str false] false false) [first.copy, source] (.split {})) :=
    Calls.two rfl rfl (fun fuel => hfirst.coerce_eq (puller fuel) false) (by rw [hfirst.ty_eq]; rfl)
      (fun fuel => hsource.coerce_eq (puller fuel) true) (by rw [hsource.ty_eq]; rfl)
  rw [hfirst.copy_eq] at hcalls
  exact ⟨_, _, hfound, hcalls, .split hseparator (.uncut (.mk (.inr ⟨rfl, hfirst⟩) hserving) hcuts), rfl⟩

theorem calls_join (h : Registry.standard = .ok registry) {separator : Bytes} {pieces : List Bytes}
    {between list : Value} (hbetween : Given between separator) (hlist : Offering list pieces)
    (hty : list.ty = .lst [.str false] false false) :
    ∃ f joined, registry.lookup? "join" = some f ∧ Calls f [between, list] joined ∧
      ∃ last, Yields (fun fuel => readAll (puller fuel)) joined [] (separator.intercalate pieces) last := by
  have hsig : Ty.parse "Str -> [Str*]* -> Str*" =
      .ok (.arrow (.str false) (.arrow (.lst [.str true] true false) (.str true))) := by cbv
  obtain ⟨doc, hfound⟩ : ∃ doc, registry.lookup? "join" =
      some (.head ⟨"join", "Str -> [Str*]* -> Str*", 2, doc, .join⟩ _) :=
    Registry.lookup?_of_standard h (by simp [Catalogue.standard, Catalogue.text]) hsig
  have hrecast (p : Puller) : (coerce p list (.lst [.str true] true false) : Act Value Value) =
      pure (.recast (.lst [.str true] true false) list 0) := by
    have htarget : Ty.instantiated (.lst [.str true] true false) (.lst [.str false] false false) =
        .lst [.str true] true false := rfl
    simp only [coerce, hlist.kind_eq, Value.recastTo, hty, htarget]
    rw [if_neg (by simp)]
  have hcalls : Calls (.head ⟨"join", "Str -> [Str*]* -> Str*", 2, doc, .join⟩
      (.arrow (.str false) (.arrow (.lst [.str true] true false) (.str true)))) [between, list]
      (.suspended "join" (.str true) [between.copy, .recast (.lst [.str true] true false) list 0] (.join none)) :=
    Calls.two rfl rfl (fun fuel => hbetween.coerce_eq (puller fuel) false) (by rw [hbetween.ty_eq]; rfl)
      (fun fuel => hrecast (puller fuel)) rfl
  rw [hbetween.copy_eq] at hcalls
  have hitems : Offering (.recast (.lst [.str true] true false) list 0) pieces :=
    .recast (by simp [Ty.elements, Ty.kind]) hlist
  have hdue : Joiner.Due separator (⟨"join", .str true, [between, _]⟩, none) false pieces := .unread hbetween hitems
  obtain ⟨last, hdrain⟩ := hdue.yields_drain 0
  exact ⟨_, _, hfound, hcalls, _, .gathered (.pull rfl (.look (hdrain.within _)))⟩

/-- A text is cut at the leftmost occurrences of the separator that do not overlap, in one way only, into at least
one piece, and no piece has the separator in it. These are the pieces that splitting gives, in whatever chunks the
text comes, and joining them with the separator gives the text back. -/
theorem split_then_join {registry : Registry} (hregistry : Registry.standard = .ok registry) {separator : Bytes}
    (hseparator : separator ≠ []) (text : Bytes) :
    ∃ pieces, Bytes.Cuts separator text pieces ∧ (∀ other, Bytes.Cuts separator text other → other = pieces) ∧
      pieces ≠ [] ∧ (∀ piece ∈ pieces, ¬ separator <:+: piece) ∧
      ∀ first between source, Given first separator → Given between separator → Given source text →
        ∃ f split g joined, registry.lookup? "split" = some f ∧ Calls f [first, source] split ∧
          registry.lookup? "join" = some g ∧ Calls g [between, split] joined ∧
          (∃ last, Yields (fun fuel => drainItems (puller fuel)) split [] (pieces.map .textOf).reverse last) ∧
          ∃ last, Yields (fun fuel => readAll (puller fuel)) joined [] text last := by
  obtain ⟨pieces, hcuts⟩ := Bytes.Cuts.exists_pieces hseparator text
  refine ⟨pieces, hcuts, fun _ => hcuts.unique, hcuts.ne_nil, hcuts.not_infix hseparator, ?_⟩
  intro first between source hfirst hbetween hsource
  obtain ⟨f, split, hf, hsplit, hoffering, hty⟩ := calls_split hregistry hseparator hcuts hfirst hsource
  obtain ⟨g, joined, hg, hjoin, hread⟩ := calls_join hregistry hbetween hoffering hty
  rw [hcuts.intercalate_eq] at hread
  exact ⟨f, split, g, joined, hf, hsplit, hg, hjoin, hoffering.yields_drainItems, hread⟩

theorem split_then_join_comma :
    ∃ registry f split g joined, Registry.standard = .ok registry ∧
      registry.lookup? "split" = some f ∧ Calls f [.textOf [44], .chunks [[97], [44, 98]] 0] split ∧
      registry.lookup? "join" = some g ∧ Calls g [.textOf [44], split] joined ∧
      ∃ last, Yields (fun fuel => readAll (puller fuel)) joined [] [97, 44, 98] last := by
  obtain ⟨registry, hregistry⟩ := Registry.exists_standard
  obtain ⟨_, -, -, -, -, hcalls⟩ := split_then_join hregistry (List.cons_ne_nil 44 []) [97, 44, 98]
  obtain ⟨f, split, g, joined, hf, hsplit, hg, hjoin, -, hread⟩ :=
    hcalls (.textOf [44]) (.textOf [44]) (.chunks [[97], [44, 98]] 0) (.text _) (.text _) (.chunks _)
  exact ⟨registry, f, split, g, joined, hregistry, hf, hsplit, hg, hjoin, hread⟩

end PullScript
