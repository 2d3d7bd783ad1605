import PullScript.Proofs.Lists.Draining
import PullScript.Proofs.Text.Reading

namespace PullScript

open Act

variable {items : List Value} {parts : List Bytes} {ty : Ty} {depth : Nat}

namespace TextView

variable {feed : Feed} {l : ListView} {separator bytes : Bytes} {item text : Value} {place : JoinPlace} {i last : Nat}

def ItemReads (feed : Feed) (item : Value) (bytes : Bytes) : Prop :=
  ∃ text, (View.coerced item (.str false)).Gives feed text ∧ ∃ last, (TextView.of text).Ends feed last bytes

theorem joined_item (hplace : (placeAfter ⟨none, 0⟩ (JoinPlace.next l separator) i).Gives feed place)
    (hgoes : place.goesOn.Gives feed false) (hitem : l.HasItem feed place.index item)
    (htext : ItemReads feed item bytes) :
    ∃ j place', (joined l separator).Runs feed i j (place.front separator ++ bytes) ∧
      (placeAfter ⟨none, 0⟩ (JoinPlace.next l separator) j).Gives feed place' ∧
      place'.goesOn.Gives feed false ∧ place'.index = place.index + 1 := by
  obtain ⟨text, hcoerced, last, hruns, hended⟩ := htext
  have hnotEnded : (JoinPlace.ended l place).Gives feed false := hgoes.bind hitem.ended
  have hdone : (JoinPlace.goesOn ⟨some (text, last), place.index + 1⟩).Gives feed false :=
    hended.bind (.pure _)
  cases hruns with
  | refl =>
    have hnext : (JoinPlace.next l separator place).Gives feed
        (some (place.front separator, ⟨some (text, 0), place.index + 1⟩)) :=
      hgoes.bind (hitem.next.bind (hcoerced.bind ((next_gives_none_iff.2 hended).bind (.pure _))))
    obtain ⟨hchunk, hplace'⟩ : ((joined l separator).next i).Gives feed _ ∧ _ :=
      stepwise_next_gives hplace hnotEnded hnext
    rw [List.append_nil]
    exact ⟨i + 1, _, .single hchunk, hplace', hdone, rfl⟩
  | step hfirst hrest =>
    have hnext : (JoinPlace.next l separator place).Gives feed
        (some (place.front separator ++ _, ⟨some (text, 1), place.index + 1⟩)) :=
      hgoes.bind (hitem.next.bind (hcoerced.bind (hfirst.bind (.pure _))))
    obtain ⟨hchunk, hplace'⟩ : ((joined l separator).next i).Gives feed _ ∧ _ :=
      stepwise_next_gives hplace hnotEnded hnext
    obtain ⟨hothers, hplace''⟩ := joined_runs hplace' hrest
    rw [← List.append_assoc]
    exact ⟨_, _, .step hchunk hothers, hplace'', hdone, rfl⟩

theorem joined_rest (hparts : List.Forall₂ (ItemReads feed) items parts)
    (hplace : (placeAfter ⟨none, 0⟩ (JoinPlace.next l separator) i).Gives feed place)
    (hgoes : place.goesOn.Gives feed false)
    (hitems : ∀ j item, items[j]? = some item → l.HasItem feed (place.index + j) item)
    (hends : (l.ended (place.index + items.length)).Gives feed true) :
    ∃ last, (joined l separator).Runs feed i last (Joiner.left separator (decide (0 < place.index)) parts) ∧
      ((joined l separator).ended last).Gives feed true := by
  induction hparts generalizing i place with
  | nil =>
    have hnothing : Joiner.left separator (decide (0 < place.index)) [] = [] := by simp [Joiner.left]
    rw [hnothing]
    exact ⟨i, .refl i, hplace.bind (hgoes.bind hends)⟩
  | @cons item part items parts hpart _ ih =>
    obtain ⟨j, place', hruns, hplace', hgoes', hindex⟩ := joined_item hplace hgoes (hitems 0 item rfl) hpart
    obtain ⟨last, hrest, hended⟩ := ih hplace' hgoes'
      (fun k other hother => by
        rw [hindex, show place.index + 1 + k = place.index + (k + 1) by omega]
        exact hitems (k + 1) other hother)
      (by rwa [hindex, show place.index + 1 + items.length = place.index + (items.length + 1) by omega])
    rw [hindex, decide_eq_true (Nat.succ_pos _)] at hrest
    have hfront : place.front separator = if decide (0 < place.index) = true then separator else [] := by
      simp [JoinPlace.front]
    rw [Joiner.left_cons, ← hfront]
    exact ⟨last, hruns.trans hrest, hended⟩

theorem joined_ends (separator : Bytes) (hitems : l.Holds feed items)
    (hparts : List.Forall₂ (ItemReads feed) items parts) :
    ∃ last, (joined l separator).Ends feed last (separator.intercalate parts) := by
  have hstart : (placeAfter ⟨none, 0⟩ (JoinPlace.next l separator) 0).Gives feed ⟨none, 0⟩ := .pure _
  obtain ⟨last, hruns, hended⟩ := joined_rest hparts hstart (.pure _)
    (fun j item hitem => by simpa using hitems.shows j item hitem) (by simpa using hitems.ends)
  exact ⟨last, hruns, hended⟩

end TextView

/-- How deep list types are nested inside one another, following first element types. -/
inductive Ty.Nests : Ty → Nat → Prop
  | other {ty : Ty} : (∀ elements endless tuple, ty ≠ .lst elements endless tuple) → Nests ty 0
  | empty (endless tuple : Bool) : Nests (.lst [] endless tuple) 1
  | first {ty : Ty} {depth : Nat} (elements : List Ty) (endless tuple : Bool) :
    Nests ty depth → Nests (.lst (ty :: elements) endless tuple) (depth + 1)

theorem Ty.Nests.listDepth_eq (h : Nests ty depth) : ty.listDepth = depth := by
  induction h with
  | @other ty hother =>
    cases ty with
    | lst elements endless tuple => exact absurd rfl (hother elements endless tuple)
    | _ => rfl
  | empty => rfl
  | first elements endless tuple _ ih => rw [Ty.listDepth, ih]

/-- What stands between the items of a list of some depth: a space, a line break, or an empty line. -/
def separatorAt (depth : Nat) : Bytes :=
  if depth ≤ 1 then [0x20] else if depth = 2 then [0x0a] else [0x0a, 0x0a]

theorem Value.separatorFor_eq (h : ty.Nests depth) : separatorFor ty = separatorAt depth := by
  rw [separatorFor, h.listDepth_eq]
  obtain _ | _ | _ | depth := depth <;> rfl

namespace Value

inductive Renders (w : World) : Value → Bytes → Prop
  | number {number : Value} {x : Float} : number.Amounts w x → Renders w number (Bytes.ofString (Number.toText x))
  | text {text : Value} {bytes : Bytes} : text.Reads w bytes → Renders w text bytes
  | list {list : Value} {items : List Value} {parts : List Bytes} {depth : Nat} : list.Drains w items →
    items.length = parts.length →
    (∀ (k : Nat) item part, items[k]? = some item → parts[k]? = some part → Renders w item part) →
    list.ty.Nests depth → Renders w list ((separatorAt depth).intercalate parts)

variable {value : Value} {w : World} {bytes : Bytes}

theorem Renders.ofItems {list : Value} (hdrains : list.Drains w items) (hparts : List.Forall₂ (Renders w) items parts)
    (hdepth : list.ty.Nests depth) (hbytes : (separatorAt depth).intercalate parts = bytes) : Renders w list bytes := by
  subst hbytes
  refine .list hdrains hparts.length_eq (fun k item part hitem hpart => ?_) hdepth
  obtain ⟨hk, rfl⟩ := List.getElem?_eq_some_iff.1 hitem
  obtain ⟨hk', rfl⟩ := List.getElem?_eq_some_iff.1 hpart
  exact hparts.get hk hk'

structure IsText (value : Value) (endless : Bool) (text : Value) : Prop where
  coerce : ∀ {σ : Type} [Holder σ] (p : Puller), (coerce p value (.str endless) : Act σ Value) = pure text
  view : View.coerced value (.str endless) = pure text

theorem IsText.gives {endless : Bool} {text : Value} (h : value.IsText endless text) (feed : Feed) :
    (View.coerced value (.str endless)).Gives feed text := by
  rw [h.view]
  exact .pure _

theorem Renders.gives_whole (h : Renders w value bytes) (hvalue : value.Unpulled) (endless : Bool) :
    ∃ text, value.IsText endless text ∧ (View.ask text .whole).Gives w.feed bytes := by
  induction h generalizing endless with
  | @number number x hnumber =>
    have hgives := hvalue.amounts_iff.1 hnumber
    have hkind : number.kind = .num := View.kind_of_ask hgives
    refine ⟨.ofNumber number, ⟨fun p => by simp only [coerce, hkind], by simp only [View.coerced, hkind]⟩, ?_⟩
    exact (View.gives_ask_fitting rfl).2 (TextView.once_whole_gives (hgives.bind (.pure _)))
  | @text text bytes htext =>
    have hgives := hvalue.reads_iff.1 htext
    have hkind : text.kind = .str := View.kind_of_ask hgives
    exact ⟨text, ⟨fun p => by simp only [coerce, hkind], by simp only [View.coerced, hkind]⟩, hgives⟩
  | @list list items parts depth hdrains hlength _ hdepth ih =>
    have hholds := (hvalue.drains_iff w).1 hdrains
    have hkind : list.kind = .lst := View.kind_of_ask hholds.ends
    have hparts : List.Forall₂ (TextView.ItemReads w.feed) items parts := by
      refine List.forall₂_iff_get.2 ⟨hlength, fun k hk hk' => ?_⟩
      have hitem := hholds.shows k _ (List.getElem?_eq_getElem hk)
      obtain ⟨text, htext, hwhole⟩ := ih k _ _ (List.getElem?_eq_getElem hk) (List.getElem?_eq_getElem hk')
        (ListView.unpulled_of_next_of hvalue hitem.next) false
      exact ⟨text, htext.gives _, TextView.exists_ends_of_ask hwhole⟩
    obtain ⟨last, hends⟩ := TextView.joined_ends (separatorFor list.ty) hholds hparts
    rw [separatorFor_eq hdepth] at hends
    refine ⟨.ofList list, ⟨fun p => by simp only [coerce, hkind], by simp only [View.coerced, hkind]⟩, ?_⟩
    exact (View.gives_ask_fitting rfl).2 (separatorFor_eq hdepth ▸ hends.whole)

/-- Draining a value that was coerced to a text writes the value: numbers in decimal, texts as they are, and lists item
by item, with what stands between the items at the depth of the list. -/
theorem drain_renders {value : Value} (hvalue : value.Unpulled) {w : World} (hroom : w.out.limit = none) {bytes : Bytes}
    (h : Renders w value bytes) (endless : Bool) :
    ∃ text, (∀ (σ : Type) [Holder σ] n (s : σ × World), coerce (puller n) value (.str endless) s = .ok text s) ∧
      ∃ s, Comes (fun n => (puller n).drain) (text, w) (.ok () s) ∧ s.2.out.bytes = w.out.bytes ++ bytes := by
  obtain ⟨text, htext, n, hn⟩ := h.gives_whole hvalue endless
  have hunpulled := (htext.gives w.feed).coerced_unpulled hvalue
  obtain ⟨_, _, _, _, _, hcomes, hmoves, rfl, -⟩ :=
    ((pulls w.feed n).drain hunpulled hunpulled.at_start).complete (World.stocked hroom) hn
  exact ⟨text, fun σ _ n s => by rw [htext.coerce]; rfl, _, hcomes, hmoves.out⟩

def linesOfItems : Value :=
  .list [.lst [.num] false false]
    [.list [.num] [.number 1, .number 2] 0, .list [.num] [] 0, .list [.str false] [.chunks [[97], [98]] 0, .textOf []] 0] 0

theorem drain_renders_lines : ∃ text s,
    coerce (puller 0) linesOfItems (.str true) (([] : List Value), {}) = .ok text ([], {}) ∧
    Comes (fun n => (puller n).drain) (text, {}) (.ok () s) ∧ s.2.out.bytes = [49, 32, 50, 10, 10, 97, 98, 32] := by
  have hnumber (x : Float) : Renders {} (.number x) (Bytes.ofString (Number.toText x)) :=
    .number ((unpulled_number x).amounts_iff.2 ((View.gives_ask_fitting rfl).2 (.pure _)))
  have hchunks : Renders {} (.chunks [[97], [98]] 0) [97, 98] := .text (reads_chunks [[97], [98]] {})
  have hempty : Renders {} (.textOf []) [] := .text (reads_textOf [] {})
  have hnum : Ty.num.Nests 0 := .other (by simp)
  have hstr : (Ty.str false).Nests 0 := .other (by simp)
  have hitems : UnpulledAll [.list [.num] [.number 1, .number 2] 0, .list [.num] [] 0,
      .list [.str false] [.chunks [[97], [98]] 0, .textOf []] 0] :=
    ⟨⟨⟨trivial, trivial, trivial⟩, rfl⟩, ⟨trivial, rfl⟩, ⟨⟨rfl, rfl, trivial⟩, rfl⟩, trivial⟩
  have hfirst : Renders {} (.list [.num] [.number 1, .number 2] 0) [49, 32, 50] :=
    .ofItems (drains_list hitems.1.1 {}) (.cons (hnumber 1) (.cons (hnumber 2) .nil)) (.first _ _ _ hnum) (by decide +kernel)
  have hsecond : Renders {} (.list [.num] [] 0) [] :=
    .ofItems (drains_list hitems.2.1.1 {}) .nil (.first _ _ _ hnum) rfl
  have hthird : Renders {} (.list [.str false] [.chunks [[97], [98]] 0, .textOf []] 0) [97, 98, 32] :=
    .ofItems (drains_list hitems.2.2.1.1 {}) (.cons hchunks (.cons hempty .nil)) (.first _ _ _ hstr) rfl
  have hlines : Renders {} linesOfItems [49, 32, 50, 10, 10, 97, 98, 32] :=
    .ofItems (drains_list hitems {}) (.cons hfirst (.cons hsecond (.cons hthird .nil))) (.first _ _ _ (.first _ _ _ hnum)) rfl
  have hunpulled : linesOfItems.Unpulled := ⟨hitems, rfl⟩
  obtain ⟨text, hcoerce, s, hdrain, hout⟩ := drain_renders hunpulled rfl hlines true
  exact ⟨text, s, hcoerce _ 0 _, hdrain, hout⟩

end Value

end PullScript
