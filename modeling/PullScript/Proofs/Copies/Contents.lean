import PullScript.Proofs.Copies.Calls
import PullScript.Proofs.Eval.Yields
import PullScript.Proofs.Lists.Draining
import PullScript.Proofs.View.Pouring

namespace PullScript

open Act

inductive Content where
  | number (x : Float)
  | front (bytes : Bytes)
  | whole (bytes : Bytes)
  | answers (asks : List Asked)
  | result (x y : Value)

namespace Content

def Of (s : Value × World) : Content → Prop
  | number x => ∃ n s', (puller n).number s = .ok x s'
  | front bytes => ∃ asks s' sent, Poured s asks s' ∧ s'.2.out.bytes = s.2.out.bytes ++ sent ∧ bytes <+: sent
  | whole bytes => ∃ n s', (puller n).drain s = .ok () s' ∧ s'.2.out.bytes = s.2.out.bytes ++ bytes
  | answers asks => ∃ s', Walked s asks s'
  | result x y => x.Unpulled ∧ ∃ n s', (puller n).apply x s = .ok y s'

end Content

def Content.Seen (feed : Feed) (value : Value) : Content → Prop
  | number x => (View.ask value .number).Gives feed x
  | front bytes => ∃ i sent, (TextView.of value).Runs feed 0 i sent ∧ bytes <+: sent
  | whole bytes => (View.ask value .whole).Gives feed bytes
  | answers asks => Asked.SeenFrom feed value 0 asks
  | result x y => x.Unpulled ∧ (View.ask value (.applied x)).Gives feed y

def Value.Starts (feed : Feed) (value : Value) (s : Value × World) : Prop :=
  ∃ seen, s.2.Stocked feed seen ∧ value.At feed seen 0 s.1

section

variable {feed : Feed} {value : Value} {s s' : Value × World}

theorem Value.Starts.on (h : value.Starts feed s) : value.On feed 0 s := by
  obtain ⟨seen, hstocked, hat⟩ := h
  exact ⟨seen, ⟨hstocked.stock, hstocked.seen, rfl⟩, hat⟩

/-- Work that streams nothing and follows a view from the start of a value on answers what the view gives. -/
theorem Value.Starts.answers_iff {α : Type} {act : Nat → Act Value α} {m : View α} {a : α}
    {P : Reach → α → Value → Prop} (h : value.Starts feed s)
    (htells : ∀ n seen v, value.At feed seen 0 v → Tells feed n seen v act m P) :
    (∃ n s', act n s = .ok a s') ↔ m.Gives feed a := by
  obtain ⟨v, w⟩ := s
  obtain ⟨seen, hstocked, hat⟩ := h
  constructor
  · rintro ⟨n, s', hrun⟩
    obtain ⟨_, _, _, hgives, -, rfl, -⟩ := (htells n seen v hat).sound hstocked hrun
    exact hgives
  · rintro ⟨n, hn⟩
    obtain ⟨_, _, v', w', _, hcomes, -, rfl, -⟩ := (htells n seen v hat).complete hstocked hn
    obtain ⟨least, hleast⟩ := hcomes.enough
    exact ⟨least, (v', w'), hleast least (Nat.le_refl _)⟩

theorem Value.Starts.drains_iff (h : value.Starts feed s) (hvalue : value.Unpulled) {bytes : Bytes} :
    (Content.whole bytes).Of s ↔ (View.ask value .whole).Gives feed bytes := by
  obtain ⟨v, w⟩ := s
  obtain ⟨seen, hstocked, hat⟩ := h
  constructor
  · rintro ⟨n, ⟨v', w'⟩, hrun, hout⟩
    obtain ⟨_, _, _, hgives, hmoves, rfl, -⟩ := ((pulls feed n).drain hvalue hat).sound hstocked hrun
    obtain rfl := List.append_cancel_left (hmoves.out.symm.trans hout)
    exact hgives
  · rintro ⟨n, hn⟩
    obtain ⟨_, _, v', w', _, hcomes, hmoves, rfl, -⟩ := ((pulls feed n).drain hvalue hat).complete hstocked hn
    obtain ⟨least, hleast⟩ := hcomes.enough
    exact ⟨least, (v', w'), hleast least (Nat.le_refl _), hmoves.out⟩

namespace Value.PouredTo

variable {before sent all : Bytes} {i last : Nat}

theorem led {asks : List TextAsked} (hpoured : Poured s asks s') (h : value.PouredTo feed before i sent s)
    (hvalue : value.Unpulled) : ∃ j more, value.PouredTo feed before j (sent ++ more) s' := by
  induction hpoured generalizing i sent with
  | nil s => exact ⟨i, [], by rwa [List.append_nil]⟩
  | @cons asked _ _ _ _ hgets _ ih =>
    cases asked with
    | ended e => exact ih (h.ended_sound hvalue hgets).2
    | stream =>
      obtain ⟨_, _, more, -, -, hplace⟩ := h.stream_sound hvalue hgets
      obtain ⟨k, more', hplace'⟩ := ih hplace
      exact ⟨k, more ++ more', by rwa [List.append_assoc] at hplace'⟩

theorem exists_poured (hruns : (TextView.of value).Runs feed 0 last all) (h : value.PouredTo feed before i sent s)
    (hvalue : value.Unpulled) :
    ∃ asks s' sent', Poured s asks s' ∧ s'.2.out.bytes = before ++ sent' ∧ all <+: sent' := by
  -- The distance from the place that was reached gets smaller with each chunk.
  induction hdistance : last - i using Nat.strong_induction_on generalizing i sent s with
  | h distance ih =>
    by_cases hle : last ≤ i
    · obtain ⟨rest, rfl, -⟩ := h.runs.split hruns hle
      exact ⟨[], s, all ++ rest, .nil s, h.out, rest, rfl⟩
    · obtain ⟨rest, -, hrest⟩ := hruns.split h.runs (by omega)
      cases hrest with
      | refl => exact absurd (Nat.le_refl _) hle
      | step hnext _ =>
        obtain ⟨t, hcomes⟩ := h.stream_complete hvalue hnext
        obtain ⟨least, hleast⟩ := hcomes.enough
        have hgets : TextAsked.stream.Gets s t := .stream (hleast least (Nat.le_refl _))
        obtain ⟨chunk, j, more, hgives, hpassed, hplace⟩ := h.stream_sound hvalue hgets
        obtain rfl := hgives.unique hnext
        have hlt := hpassed.1
        obtain ⟨asks, s', sent', hpoured, hout, hfront⟩ := ih (last - j) (by omega) hplace rfl
        exact ⟨.stream :: asks, s', sent', .cons hgets hpoured, hout, hfront⟩

end Value.PouredTo

theorem Value.Starts.pours_iff (h : value.Starts feed s) (hvalue : value.Unpulled) {bytes : Bytes} :
    (Content.front bytes).Of s ↔ ∃ i sent, (TextView.of value).Runs feed 0 i sent ∧ bytes <+: sent := by
  have hstart : value.PouredTo feed s.2.out.bytes 0 [] s := ⟨h, .refl 0, (List.append_nil _).symm⟩
  constructor
  · rintro ⟨asks, s', sent, hpoured, hout, hfront⟩
    obtain ⟨i, more, hplace⟩ := hstart.led hpoured hvalue
    obtain rfl := List.append_cancel_left (hplace.out.symm.trans hout)
    exact ⟨i, _, hplace.runs, hfront⟩
  · rintro ⟨i, all, hruns, hfront⟩
    obtain ⟨asks, s', sent, hpoured, hout, hall⟩ := hstart.exists_poured hruns hvalue
    exact ⟨asks, s', sent, hpoured, hout, hfront.trans hall⟩

theorem Content.of_iff_seen (hvalue : value.Unpulled) (h : value.Starts feed s) (content : Content) :
    content.Of s ↔ content.Seen feed value := by
  cases content with
  | number x => exact h.answers_iff fun n _ _ => (pulls feed n).number hvalue
  | front bytes => exact h.pours_iff hvalue
  | whole bytes => exact h.drains_iff hvalue
  | answers asks => exact h.on.walked_iff hvalue
  | result x y => exact and_congr_right fun hx => h.answers_iff fun n _ _ => (pulls feed n).apply hvalue hx

end

namespace Value

theorem Kept.starts {value left : Value} {w w₀ : World} (h : Kept w₀.feed value true left) (hfeed : w.feed = w₀.feed)
    (hroom : w.out.limit = none) : value.Starts w₀.feed (left.copy, w) :=
  ⟨w.read, hfeed ▸ World.stocked hroom, h.at_copy⟩

theorem Called.clean {value left : Value} {clean : Bool} (h : Called value clean left) (hvalue : value.Sealed)
    (w₀ : World)
    (hmade : clean = true ∨ ∀ source ∈ value.counted, ∃ n w x s, (puller n).number (source, w) = .ok x s) :
    Kept w₀.feed value true left := by
  have hkept := h.kept hvalue w₀
  obtain rfl | hmade := hmade
  · exact hkept
  · refine hkept.reclean (.inr fun source hsource hsealed => ?_)
    obtain ⟨n, w, x, s, hrun⟩ := hmade source hsource
    have hsettled := hsealed.made w₀ n () w trivial
    rw [hrun] at hsettled
    exact ⟨x, hsettled.1⟩

/-- A copy that is taken after any calls, answered or not, has the type and the debug form of one that is taken
before. It also yields the same, if all calls were answered or if all numbers that the value notes can be made. What
the value itself answers does not depend on the world, so nothing that is done with the copy has an effect on it. -/
theorem Built.copy_starts_over {registry : Registry} (hregistry : Registry.standard = .ok registry) {value left : Value}
    {clean : Bool} (hbuilt : value.Built registry false) (hcalled : value.Called clean left) :
    (left.copy.ty = value.copy.ty ∧ ∀ layout, left.copy.debugText layout = value.copy.debugText layout) ∧
    ((clean = true ∨ ∀ source ∈ value.counted, ∃ n w x s, (puller n).number (source, w) = .ok x s) →
      ∀ w₁ w₂ : World, w₁.feed = w₂.feed → w₁.out.limit = none → w₂.out.limit = none →
        ∀ content : Content, content.Of (left.copy, w₁) ↔ content.Of (value.copy, w₂)) ∧
    ∀ (call : Call) n, AgreeFrom ⟨false, true⟩ left left (call.act (puller n)) fun k => call.act (puller k) := by
  have hsealed := hbuilt.sealed hregistry
  refine ⟨?_, fun hmade w₁ w₂ hfeed hroom₁ hroom₂ content => ?_, fun call n => ?_⟩
  · have hkept := hcalled.kept hsealed {}
    have hty : left.copy.ty = value.copy.ty := by rw [ty_copy, ty_copy, hkept.ty_eq]
    have hparts : left.copy.parts = value.copy.parts := by rw [parts_copy, parts_copy, hkept.parts_eq]
    exact ⟨hty, debugText_congr hty hparts⟩
  · have hleft := (hcalled.clean hsealed w₂ hmade).starts hfeed hroom₁
    have hvalue : value.Starts w₂.feed (value.copy, w₂) := Kept.starts hsealed.kept rfl hroom₂
    exact (content.of_iff_seen hsealed.unpulled hleft).trans (content.of_iff_seen hsealed.unpulled hvalue).symm
  · exact call.act_agree (asks_puller false n) (hcalled.twin hsealed.twin)

def firstItems (count list : Value) (state : Take) : Value :=
  .suspended "take" (.listOf [.num] true) [count, list] (.take state)

/-- The number at the front of the items of a list, of which there is one that fails. -/
def brokenNumber (position : Nat) (started : Bool) (known : Option Float) : Value :=
  .suspended "tonum" .num [.listText (.list [] [headOfNone] position) ⟨[32], none, started⟩]
    (.calculate .leadingNumber known)

def oneItem : Value :=
  .recast (.listOf [.num] true) (.list [.num] [.number 1] 0) 0

section

variable {registry : Registry} (h : Registry.standard = .ok registry)
include h

theorem built_take : Built registry false (.head
    ⟨"take", "Num -> [a]* -> [a]*", 2, "only the first items of a list, or fewer", .take⟩
    (.arrow .num (.arrow (.listOf [.unknown "a_take"] true) (.listOf [.unknown "a_take"] true)))) :=
  Built.standard h false _ (.arrow .num (.arrow (.listOf [.unknown "a"] true) (.listOf [.unknown "a"] true)))
    (by simp [Catalogue.standard, Catalogue.list]) (by cbv)

theorem built_firstItems_unevenZip : (firstItems (.number 1) (unevenZip false 0) {}).Built registry false := by
  have hcount := Built.applied (built_take h) (.number 1) (w := {}) (n := 2) (by cbv)
  exact .applied hcount (built_unevenZip h false) (w := {}) (n := 2) (by cbv)

theorem built_brokenNumber : (brokenNumber 0 false none).Built registry false := by
  have htonum := Built.standard h false
    ⟨"tonum", "Str* -> Num", 1, "convert a string into a number; reads the leading decimal number, 0 if there is none",
      .calculate .leadingNumber⟩
    (.arrow (.str true) .num) (by simp [Catalogue.standard, Catalogue.num]) (by cbv)
  have hlist : Built registry false (.list [] [headOfNone] 0) := .list [] fun item hmem => by
    obtain rfl := List.mem_singleton.1 hmem
    exact built_headOfNone h false
  exact .applied htonum hlist (w := {}) (n := 2) (by cbv)

theorem built_firstItems_brokenNumber : (firstItems (brokenNumber 0 false none) oneItem {}).Built registry false := by
  have hcount := Built.applied (built_take h) (built_brokenNumber h) (w := {}) (n := 2) (by cbv)
  have hone : Built registry false (.list [.num] [.number 1] 0) := .list [.num] fun item hmem => by
    obtain rfl := List.mem_singleton.1 hmem
    exact .number 1
  exact .applied hcount hone (w := {}) (n := 2) (by cbv)

end

theorem Built.copy_starts_over_unevenZip :
    let value := firstItems (.number 1) (unevenZip false 0) {}
    ∃ registry left, Registry.standard = .ok registry ∧ value.Built registry false ∧ value.Called false left ∧
      ((Content.answers [.advance]).Of (left.copy, {}) ↔ (Content.answers [.advance]).Of (value.copy, {})) ∧
      (Content.answers [.advance]).Of (value.copy, {}) := by
  intro value
  obtain ⟨registry, hregistry⟩ := Registry.exists_standard
  have hbuilt : value.Built registry false := built_firstItems_unevenZip hregistry
  have hcalled : ∃ left, value.Called false left :=
    ⟨_, .failed (n := 9) (w := {}) .advance (.answered (n := 9) (w := {}) .advance .none (by cbv)) (by cbv)⟩
  obtain ⟨left, hcalled⟩ := hcalled
  have hmade : ∀ source ∈ value.counted, ∃ n w x s, (puller n).number (source, w) = .ok x s := by
    intro source hsource
    have hcounted : value.counted = [.number 1] := by cbv
    obtain rfl := List.mem_singleton.1 (hcounted ▸ hsource)
    exact ⟨1, {}, 1, _, rfl⟩
  have hsame := (hbuilt.copy_starts_over hregistry hcalled).2.1 (.inr hmade) {} {} rfl rfl rfl
  exact ⟨registry, left, hregistry, hbuilt, hcalled, hsame _, _, .cons (.advance (n := 9) (by cbv)) (.nil _)⟩

theorem yields_calculated {c : Calculation} {x : Float} {b b' : Bound}
    (h : Yields (fun k => c.run (puller k)) b [] x b') :
    Yields (fun k => (puller k).number) (b.suspend (.calculate c none)) [] x (b'.suspend (.calculate c (some x))) := by
  have hknown : Yields (fun k => calculated (puller k) c) (b, none) [] x (b', some x) :=
    .look ((h.onFirst none).andThen ((Yields.change _ _).andThen (.pure x _)))
  exact .pull rfl (.look (hknown.within fun s : Bound × Option Float => s.1.suspend (.calculate c s.2)))

theorem yields_brokenNumber : Yields (fun k => (puller k).number) (brokenNumber 1 true none) [] (Number.ofLeading [])
    (brokenNumber 1 true (some (Number.ofLeading []))) := by
  let list : Value := .list [] [headOfNone] 1
  let text : Value := .listText list ⟨[32], none, true⟩
  have hlist : Yields (fun k => (puller k).listEnded) list [] true list :=
    .pull rfl (.of_comes fun _ => .of_eq fun _ => rfl)
  have hitem : Yields (fun k => Joiner.itemGoesOn (puller k)) (⟨[32], none, true⟩, list) [] false _ :=
    .look (.pure _ _)
  have hjoiner : Yields (fun k => Joiner.answer (puller k) .ended) (⟨[32], none, true⟩, list) [] true _ :=
    hitem.andThen (hlist.onSecond _)
  have hended : Yields (fun k => (puller k).textEnded) text [] true text :=
    .pull rfl (.look (hjoiner.within fun s => Value.listText s.2 s.1))
  have hrounds : Yields (fun k => loop (fun buffer => do
      if !Number.mayGoOn buffer then return .inr buffer
      if ← (puller k).textEnded then return .inr buffer
      return .inl (buffer ++ (← gathered (puller k).stream))) (k - 0) []) text [] [] text :=
    .done (hended.andThen (.pure _ _))
  have hread : Yields (fun k => readWhile (puller k) Number.mayGoOn) text [] [] text :=
    (Yields.look (.pure () text)).andThen hrounds
  have hrun : Yields (fun k => Calculation.run (puller k) .leadingNumber) ⟨"tonum", .num, [text]⟩ []
      (Number.ofLeading []) ⟨"tonum", .num, [text]⟩ :=
    Yields.andThen (Bound.yields_on rfl hread) (.pure (Number.ofLeading []) _)
  exact yields_calculated hrun

theorem yields_firstItems {count count' list : Value} {x : Float}
    (h : Yields (fun k => (puller k).number) count [] x count') (hzero : countOf x = 0) :
    Yields (fun k => (puller k).listEnded) (firstItems count list {}) [] true (firstItems count' list ⟨some 0, 0⟩) := by
  let b : Bound := ⟨"take", .listOf [.num] true, [count, list]⟩
  let b' : Bound := ⟨"take", .listOf [.num] true, [count', list]⟩
  have hcount : Yields (fun k => countArg (puller k) 0) b [] 0 b' := by
    refine Yields.andThen (Bound.yields_on rfl h) ?_
    rw [hzero]
    exact .pure _ _
  have hlimit : Yields (fun k => Take.readLimit (puller k)) (b, {}) [] 0 (b', ⟨some 0, 0⟩) :=
    .look ((hcount.onFirst _).andThen ((Yields.change _ _).andThen (.pure _ _)))
  have hended : Yields (fun k => Take.answer (puller k) .ended) (b, {}) [] true (b', ⟨some 0, 0⟩) :=
    hlimit.andThen (.look (.pure _ _))
  exact .pull rfl (.look (hended.within fun s : Bound × Take => s.1.suspend (.take s.2)))

/-- A number that could not be made when a list asked for its limit, and that was made later, is told by copies: a copy
that was taken before fails, and one that is taken afterwards has ended. -/
theorem copy_tells_limit :
    let value := firstItems (brokenNumber 0 false none) oneItem {}
    ∃ registry left, Registry.standard = .ok registry ∧ value.Built registry false ∧ value.Called false left ∧
      (Content.answers [.ended true]).Of (left.copy, {}) ∧ ∀ e, ¬ (Content.answers [.ended e]).Of (value.copy, {}) := by
  intro value
  obtain ⟨registry, hregistry⟩ := Registry.exists_standard
  let left : Value := firstItems (brokenNumber 1 true (some (Number.ofLeading []))) oneItem ⟨some 0, 0⟩
  have hfailed : value.Called false (firstItems (brokenNumber 1 true none) oneItem {}) :=
    .failed (w := {}) .listEnded .none (show (puller 9).listEnded _ = .error _ (_, {}) by cbv)
  have hyields : Yields (fun k => (puller k).listEnded) _ [] true left :=
    yields_firstItems yields_brokenNumber (by decide +kernel)
  obtain ⟨least, hleast⟩ := (hyields.comes {}).enough
  have hcalled : value.Called false left := .answered .listEnded hfailed (hleast least (Nat.le_refl _))
  refine ⟨registry, left, hregistry, built_firstItems_brokenNumber hregistry, hcalled, ?_, fun e => ?_⟩
  · have hcopy : left.copy = firstItems (brokenNumber 0 false none) oneItem ⟨some 0, 0⟩ := rfl
    rw [hcopy]
    exact ⟨_, .cons (.ended (n := 9) (by cbv)) (.nil _)⟩
  · rintro ⟨s, hwalked⟩
    cases hwalked with
    | cons hgets _ => cases hgets with
      | @ended n _ _ s' hrun =>
        have hfails : ∃ stop t, (puller n).listEnded (value.copy, {}) = .error stop t := by
          rcases n with _ | _ | _ | _ | _ | _ | _ | _ | _ | n
          all_goals exact ⟨_, _, by cbv⟩
        obtain ⟨stop, t, hstop⟩ := hfails
        cases hrun.symm.trans hstop

end Value

end PullScript
