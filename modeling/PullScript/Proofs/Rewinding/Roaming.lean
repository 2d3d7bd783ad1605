import PullScript.Proofs.Lists.Draining
import PullScript.Proofs.Rewinding.Counting

namespace PullScript

open Act

inductive Roamed : Value × World → Value × World → Prop
  | refl (s : Value × World) : Roamed s s
  | asked {asked : Asked} {s s' s'' : Value × World} : asked.Gets s s' → Roamed s' s'' → Roamed s s''
  | next {n : Nat} {item : Option Value} {s s' s'' : Value × World} : (puller n).next s = .ok item s' → Roamed s' s'' →
    Roamed s s''
  | rewound {n : Nat} {s s' s'' : Value × World} : (puller n).rewind s = .ok () s' → Roamed s' s'' → Roamed s s''

section

variable {feed : Feed} {list : Value} {k n : Nat} {s s' : Value × World}

namespace Value.On

section

variable {α : Type} {act : Act Value α} {F : Prop} {Q : Reach → α → Value → Prop} {E : Reach → Value → Prop}
  (hon : list.On feed k s) (hquiet : Quiet act)
  (h : ∀ {seen}, list.At feed seen k s.1 → Lands feed seen F s.1 act Q E)
include hon hquiet h

theorem lands_of_ok {a : α} (hrun : act s = .ok a s') :
    ∃ seen, ({ s'.2 with out := {} } : World).Stocked feed seen ∧ Q seen a s'.1 := by
  obtain ⟨seen, hstocked, hat⟩ := hon
  have hroomy := hquiet s.1 s.2 {}
  rw [hrun] at hroomy
  have hlanded := h hat hstocked
  rw [hroomy] at hlanded
  obtain ⟨seen', -, hlanded⟩ := hlanded
  exact ⟨seen', hlanded⟩

theorem lands_of_failed (hF : F) {error : Error} (hrun : act s = .error (.failed error) s') :
    ∃ seen, ({ s'.2 with out := {} } : World).Stocked feed seen ∧ E seen s'.1 := by
  obtain ⟨seen, hstocked, hat⟩ := hon
  have hroomy := hquiet s.1 s.2 {}
  rw [hrun] at hroomy
  have hlanded := h hat hstocked
  rw [hroomy] at hlanded
  obtain ⟨seen', -, hlanded⟩ := hlanded hF
  exact ⟨seen', hlanded⟩

end

variable (hlist : list.Unpulled) (hon : list.On feed k s)
include hlist hon

theorem rewound (hrun : (puller n).rewind s = .ok () s') : list.On feed 0 s' := by
  have hquiet : Quiet (puller n).rewind := ((steady_puller n).list .rewind).quiet_run
  exact hon.lands_of_ok (E := fun _ _ => True) hquiet
    (fun hat => (rewinds feed n hlist hat).imp id (fun _ _ _ _ => id) fun _ _ _ _ _ => trivial) hrun

theorem notRewound (hone : s.1.OneTrack) {error : Error} (hrun : (puller n).rewind s = .error (.failed error) s') :
    list.On feed k s' := by
  have hquiet : Quiet (puller n).rewind := ((steady_puller n).list .rewind).quiet_run
  exact hon.lands_of_failed hquiet
    (fun hat => (rewinds feed n hlist hat).imp id (fun _ _ _ _ => id) fun _ _ _ _ hv => hv.1) hone hrun

theorem counted {c : Nat} (hrun : (puller n).count s = .ok c s') :
    (ListView.of list).Counts feed c ∧ ∃ effect, s'.1.Counting effect ∧
      (effect = .stays → list.On feed k s') ∧ (effect = .rewinds → list.On feed 0 s') := by
  have hquiet : Quiet (puller n).count := ((steady_puller n).list .count).quiet_run
  obtain ⟨seen, hstocked, hcounts, effect, heffect, hleaves⟩ :=
    hon.lands_of_ok hquiet (fun hat => tallies feed n hlist hat) hrun
  refine ⟨hcounts, effect, heffect, ?_, ?_⟩
  · rintro rfl
    exact ⟨seen, hstocked, hleaves⟩
  · rintro rfl
    exact ⟨seen, hstocked, hleaves⟩

theorem next {item : Option Value} (hrun : (puller n).next s = .ok item s') : ∃ j, list.On feed j s' := by
  have hquiet : Quiet (puller n).next := (steady_puller n).next.quiet_run
  obtain ⟨seen, hstocked, -, hat⟩ := hon.lands_of_ok (E := fun _ _ => True) hquiet
    (fun hat => Lands.ofTells (((pulls feed n).list hlist).next hat)) hrun
  exact ⟨_, seen, hstocked, hat⟩

end Value.On

theorem Roamed.on (h : Roamed s s') (hlist : list.Unpulled) (hon : list.On feed k s) : ∃ j, list.On feed j s' := by
  induction h generalizing k with
  | refl s => exact ⟨k, hon⟩
  | asked hgets _ ih => exact ih (hgets.seen hlist hon).2
  | next hrun _ ih =>
    obtain ⟨j, hon'⟩ := hon.next hlist hrun
    exact ih hon'
  | rewound hrun _ ih => exact ih (hon.rewound hlist hrun)

theorem Value.On.copy (hon : list.On feed k s) (hlist : list.Unpulled) : list.On feed 0 (list.copy, s.2) := by
  obtain ⟨seen, hstocked, -⟩ := hon
  exact ⟨seen, hstocked, hlist.at_copy⟩

end

/-- Wherever it has been led, a list that has been counted goes on as it would have without, or as a copy of it does
from the start; which of the two depends on what is at the bottom of it. It does neither only where it has lost step. -/
theorem Value.Built.walked_after_count {registry : Registry} {inputs : Bool} {list : Value} (hbuilt : list.Built registry inputs) {w : World} {left left' : Value × World}
    (hleft : Roamed (list, w) left) {n c : Nat} (hrun : (puller n).count left = .ok c left') :
    ∃ effect, left'.1.Counting effect ∧
      (effect = .stays → ∀ asks, (∃ t, Walked left' asks t) ↔ ∃ t, Walked left asks t) ∧
      (effect = .rewinds → ∀ asks, (∃ t, Walked left' asks t) ↔ ∃ t, Walked (list.copy, left'.2) asks t) := by
  have hlist := hbuilt.unpulled
  obtain ⟨k, hon⟩ := hleft.on hlist (hlist.on w)
  obtain ⟨-, effect, heffect, hstays, hrewinds⟩ := hon.counted hlist hrun
  refine ⟨effect, heffect, fun hstay asks => ?_, fun hrewind asks => ?_⟩
  · rw [(hstays hstay).walked_iff hlist, hon.walked_iff hlist]
  · have hon' := hrewinds hrewind
    rw [hon'.walked_iff hlist, (hon'.copy hlist).walked_iff hlist]

/-- Wherever it has been led, a list on one track that fails to go back goes on as it would have without. -/
theorem Value.Built.walked_after_failed_rewind {registry : Registry} {inputs : Bool} {list : Value}
    (hbuilt : list.Built registry inputs) {w : World} {left left' : Value × World}
    (hleft : Roamed (list, w) left) (hone : left.1.OneTrack) {n : Nat} {error : Error}
    (hrun : (puller n).rewind left = .error (.failed error) left') (asks : List Asked) :
    (∃ t, Walked left' asks t) ↔ ∃ t, Walked left asks t := by
  have hlist := hbuilt.unpulled
  obtain ⟨k, hon⟩ := hleft.on hlist (hlist.on w)
  rw [(hon.notRewound hlist hone hrun).walked_iff hlist, hon.walked_iff hlist]

namespace Value

def threeTexts (position : Nat) : Value :=
  .list [.str false] [.textOf [97], .textOf [98], .textOf [99]] position

def tailOfTexts (position : Nat) (started : Bool) : Value :=
  .suspended "tail" (.listOf [.str false] true) [threeTexts position] (.tail started)

def threePieces (read : Bool) (splitter : Splitter) : Value :=
  .suspended "split" (.listOf [.str false] false) [.text [45] read, .text [120, 45, 121, 45, 122] read] (.split splitter)

/-- Three texts side by side with the pieces of a text, which cannot go back. -/
def textsByPieces (position : Nat) (read : Bool) (splitter : Splitter) (place : Nat) : Value :=
  .suspended "zipwith" (.listOf [.str true] true)
    [firstOfTwo, .recast (.listOf [.str false] true) (threeTexts position) position,
      .recast (.listOf [.str false] true) (threePieces read splitter) place] .zipWith

/-- The pieces of a text, which cannot go back, side by side with three texts. -/
def piecesByTexts (read : Bool) (splitter : Splitter) (place position : Nat) : Value :=
  .suspended "zipwith" (.listOf [.str true] true)
    [firstOfTwo, .recast (.listOf [.str false] true) (threePieces read splitter) place,
      .recast (.listOf [.str false] true) (threeTexts position) position] .zipWith

section

variable {registry : Registry} (h : Registry.standard = .ok registry) (inputs : Bool)

theorem built_threeTexts : (threeTexts 0).Built registry inputs :=
  .list _ fun item hmem => by
    simp only [List.mem_cons, List.not_mem_nil, or_false] at hmem
    obtain rfl | rfl | rfl := hmem <;> exact .text _

include h

theorem built_tailOfTexts : (tailOfTexts 0 false).Built registry inputs := by
  have htail := Built.standard h inputs ⟨"tail", "[a] -> [a]", 1, "every item of a list but the first", .tail⟩
    (.arrow (.listOf [.unknown "a"] false) (.listOf [.unknown "a"] false)) (by simp [Catalogue.standard, Catalogue.list])
    (by cbv)
  exact .applied htail (built_threeTexts inputs) (w := {}) (n := 2) (by cbv)

theorem built_threePieces : (threePieces false {}).Built registry inputs := by
  have hsplit := Built.standard h inputs
    ⟨"split", "Str -> Str* -> [Str*]*", 2,
      "break a string into the pieces found between occurrences of a separator; " ++
        "an empty separator gives an endless list of empty strings", .split⟩
    (.arrow (.str false) (.arrow (.str true) (.listOf [.str true] true))) (by simp [Catalogue.standard, Catalogue.text])
    (by cbv)
  have hseparator := Built.applied hsplit (.text [45]) (w := {}) (n := 2) (by cbv)
  exact .applied hseparator (.text [120, 45, 121, 45, 122]) (w := {}) (n := 2) (by cbv)

theorem built_textsByPieces : (textsByPieces 0 false {} 0).Built registry inputs := by
  have hleft := Built.applied (built_zipWithFirst h inputs) (built_threeTexts inputs) (w := {}) (n := 2) (by cbv)
  exact .applied hleft (built_threePieces h inputs) (w := {}) (n := 2) (by cbv)

theorem built_piecesByTexts : (piecesByTexts false {} 0 0).Built registry inputs := by
  have hleft := Built.applied (built_zipWithFirst h inputs) (built_threePieces h inputs) (w := {}) (n := 2) (by cbv)
  exact .applied hleft (built_threeTexts inputs) (w := {}) (n := 2) (by cbv)

end

theorem Built.walked_after_count_tail :
    ∃ registry, Registry.standard = .ok registry ∧ (tailOfTexts 0 false).Built registry false ∧
      Roamed (tailOfTexts 0 false, {}) (tailOfTexts 2 true, {}) ∧
      (puller 9).count (tailOfTexts 2 true, {}) = .ok 2 (tailOfTexts 0 false, {}) ∧
      ∃ effect, (tailOfTexts 0 false).Counting effect ∧ effect = .rewinds ∧
        ∀ asks, (∃ t, Walked (tailOfTexts 0 false, {}) asks t) ↔ ∃ t, Walked ((tailOfTexts 0 false).copy, {}) asks t := by
  obtain ⟨registry, hregistry⟩ := Registry.exists_standard
  have hbuilt := built_tailOfTexts hregistry false
  have hleft : Roamed (tailOfTexts 0 false, {}) (tailOfTexts 2 true, {}) := .asked (.advance (n := 9) (by cbv)) (.refl _)
  have hcount : (puller 9).count (tailOfTexts 2 true, {}) = .ok 2 (tailOfTexts 0 false, {}) := by cbv
  obtain ⟨effect, heffect, -, hrewinds⟩ := hbuilt.walked_after_count hleft hcount
  have heq : effect = .rewinds := by
    cases heffect with
    | steps => rfl
    | cut _ _ _ hcut => exact hcut.elim
  exact ⟨registry, hregistry, hbuilt, hleft, hcount, effect, heffect, heq, hrewinds heq⟩

/-- A list known up front that has been led on is not at its start when it has been counted. -/
theorem threeTexts_stays_when_counted :
    ∃ registry, Registry.standard = .ok registry ∧ (threeTexts 0).Built registry false ∧
      (puller 9).next (threeTexts 0, {}) = .ok (some (.textOf [97])) (threeTexts 1, {}) ∧
      (puller 9).count (threeTexts 1, {}) = .ok 3 (threeTexts 1, {}) ∧
      (threeTexts 1).Drains {} [.textOf [98], .textOf [99]] ∧
      ¬ (threeTexts 1).Drains {} [.textOf [97], .textOf [98], .textOf [99]] := by
  obtain ⟨registry, hregistry⟩ := Registry.exists_standard
  have hbuilt : (threeTexts 0).Built registry false := built_threeTexts false
  have hlist := hbuilt.unpulled
  have hnext : (puller 9).next (threeTexts 0, {}) = .ok (some (.textOf [97])) (threeTexts 1, {}) := by cbv
  have hdrains : (threeTexts 1).Drains {} [.textOf [98], .textOf [99]] :=
    drains_of_drained? 9 3 (threeTexts 1, {}) (by cbv)
  obtain ⟨k, hon⟩ := (hlist.on {}).next hlist hnext
  refine ⟨registry, hregistry, hbuilt, hnext, by cbv, hdrains, fun hall => ?_⟩
  cases hon.drains_unique hlist hdrains hall

theorem oneTrack_piecesByTexts (read : Bool) (splitter : Splitter) (place position : Nat) :
    (piecesByTexts read splitter place position).OneTrack := by
  refine .zipWith _ _ rfl (.recast _ _ (.alone _ _ _ trivial)) (.inl fun n w s hrun => ?_)
  rcases n with _ | _ | n
  all_goals cases hrun

theorem Built.walked_after_failed_rewind_pieces :
    ∃ registry, Registry.standard = .ok registry ∧ (piecesByTexts false {} 0 0).Built registry false ∧
      (puller 9).next (piecesByTexts false {} 0 0, {}) =
        .ok (some (.textOf [120])) (piecesByTexts true ⟨some [45], [121, 45, 122], none, false⟩ 1 1, {}) ∧
      (piecesByTexts true ⟨some [45], [121, 45, 122], none, false⟩ 1 1).OneTrack ∧
      ∃ left, (puller 9).rewind (piecesByTexts true ⟨some [45], [121, 45, 122], none, false⟩ 1 1, {}) =
          .error (.failed (.noRewind (.listOf [.str false] false))) left ∧
        ∀ asks, (∃ t, Walked left asks t) ↔
          ∃ t, Walked (piecesByTexts true ⟨some [45], [121, 45, 122], none, false⟩ 1 1, {}) asks t := by
  obtain ⟨registry, hregistry⟩ := Registry.exists_standard
  have hbuilt := built_piecesByTexts hregistry false
  have hnext : (puller 9).next (piecesByTexts false {} 0 0, {}) =
      .ok (some (.textOf [120])) (piecesByTexts true ⟨some [45], [121, 45, 122], none, false⟩ 1 1, {}) := by cbv
  have hone := oneTrack_piecesByTexts true ⟨some [45], [121, 45, 122], none, false⟩ 1 1
  have hrewind : (puller 9).rewind (piecesByTexts true ⟨some [45], [121, 45, 122], none, false⟩ 1 1, {}) =
      .error (.failed (.noRewind (.listOf [.str false] false)))
        (piecesByTexts true ⟨some [45], [121, 45, 122], none, false⟩ 1 1, {}) := by cbv
  exact ⟨registry, hregistry, hbuilt, hnext, hone, _, hrewind,
    hbuilt.walked_after_failed_rewind (.next hnext (.refl _)) hone hrewind⟩

/-- A list of which one part has gone back before another one failed to is not where it was. -/
theorem textsByPieces_goes_back_halfway :
    ∃ registry, Registry.standard = .ok registry ∧ (textsByPieces 0 false {} 0).Built registry false ∧
      (puller 9).next (textsByPieces 0 false {} 0, {}) =
        .ok (some (.textOf [97])) (textsByPieces 1 true ⟨some [45], [121, 45, 122], none, false⟩ 1, {}) ∧
      (puller 9).rewind (textsByPieces 1 true ⟨some [45], [121, 45, 122], none, false⟩ 1, {}) =
        .error (.failed (.noRewind (.listOf [.str false] false)))
          (textsByPieces 0 true ⟨some [45], [121, 45, 122], none, false⟩ 1, {}) ∧
      (textsByPieces 1 true ⟨some [45], [121, 45, 122], none, false⟩ 1).Drains {} [.textOf [98], .textOf [99]] ∧
      (textsByPieces 0 true ⟨some [45], [121, 45, 122], none, false⟩ 1).Drains {} [.textOf [97], .textOf [98]] := by
  obtain ⟨registry, hregistry⟩ := Registry.exists_standard
  refine ⟨registry, hregistry, built_textsByPieces hregistry false, by cbv, by cbv, ?_, ?_⟩
  · exact drains_of_drained? 9 3 (textsByPieces 1 true ⟨some [45], [121, 45, 122], none, false⟩ 1, {}) (by cbv)
  · exact drains_of_drained? 9 3 (textsByPieces 0 true ⟨some [45], [121, 45, 122], none, false⟩ 1, {}) (by cbv)

end Value

end PullScript
