import PullScript.Proofs.Eval.Calls
import PullScript.Proofs.Lists.Draining

namespace PullScript

open Act

def Value.taking (name : String) (ty : Ty) (count list : Value) (state : Take) : Value :=
  .suspended name ty [count, list] (.take state)

section

variable {name : String} {ty : Ty} {count count' list list' : Value} {state : Take} {limit : Nat} {w w' : World}

theorem Act.snd_of_onFirst {σ τ α : Type} [Holder σ] [Holder τ] [Inhabited σ] {act : Act σ α} {s s' : σ × τ} {a : α}
    (h : onFirst act (s, w) = .ok a (s', w')) : s'.2 = s.2 ∧ ∃ v v', act (s.1, v) = .ok a (s'.1, v') := by
  have hwithin : within s.1 (fun first => (first, s.2)) act (s, w) = .ok a (s', w') := h
  rw [within_run, Result.on_eq_ok_iff] at hwithin
  obtain ⟨⟨first, v'⟩, hrun, rfl, -⟩ := hwithin
  exact ⟨rfl, _, v', hrun⟩

theorem Take.readLimit_ok {p : Puller} {b : Bound} {state' : Take}
    (h : readLimit p ((⟨name, ty, [count, list]⟩, state), w) = .ok limit ((b, state'), w')) :
    (∃ count', b = ⟨name, ty, [count', list]⟩) ∧ state' = ⟨some limit, state.position⟩ := by
  obtain ⟨known, position⟩ := state
  cases known with
  | some known =>
    cases h
    exact ⟨⟨count, rfl⟩, rfl⟩
  | none =>
    have hbind : (onFirst (countArg p 0) >>= _) ((⟨name, ty, [count, list]⟩, ⟨none, position⟩), w) =
        .ok limit ((b, state'), w') := h
    obtain ⟨limit', ⟨⟨b', state''⟩, v⟩, hread, hrest⟩ := bind_eq_ok_iff.1 hbind
    obtain ⟨rfl, u, u', hcount⟩ := snd_of_onFirst hread
    obtain ⟨x, ⟨b₁, v₁⟩, hnumber, hpure⟩ := bind_eq_ok_iff.1 hcount
    have hwithin : within count (fun value => (⟨name, ty, [value, list]⟩ : Bound)) p.number
        (⟨name, ty, [count, list]⟩, u) = .ok x (b₁, v₁) := hnumber
    rw [within_run, Result.on_eq_ok_iff] at hwithin
    obtain ⟨⟨count', _⟩, -, rfl, -⟩ := hwithin
    cases hpure
    cases hrest
    exact ⟨⟨count', rfl⟩, rfl⟩

theorem Take.ended_asks_nothing {p p' : Puller} (hnumber : p.number = p'.number) {e : Bool} {b : Bound} {state' : Take}
    (hrun : ended p ((⟨name, ty, [count, list]⟩, state), w) = .ok e ((b, state'), w'))
    (hlimit : state'.limit = some limit) (hreached : limit ≤ state.position) :
    e = true ∧ (∃ count', b = ⟨name, ty, [count', list]⟩) ∧
      ended p' ((⟨name, ty, [count, list]⟩, state), w) = .ok e ((b, state'), w') := by
  have hread : readLimit p = readLimit p' := by simp only [readLimit, countArg, hnumber]
  obtain ⟨known, ⟨⟨b₁, state₁⟩, v⟩, hknown, hrest⟩ := bind_eq_ok_iff.1 hrun
  obtain ⟨⟨count', rfl⟩, rfl⟩ := readLimit_ok hknown
  have hrest : (if known ≤ state.position then pure true else onFirst (Bound.on 1 p.listEnded))
      ((⟨name, ty, [count', list]⟩, ⟨some known, state.position⟩), v) = .ok e ((b, state'), w') := hrest
  by_cases hle : known ≤ state.position
  · rw [if_pos hle] at hrest
    cases hrest
    refine ⟨rfl, ⟨count', rfl⟩, bind_eq_ok_iff.2 ⟨known, _, hread ▸ hknown, ?_⟩⟩
    change (if known ≤ state.position then pure true else onFirst (Bound.on 1 p'.listEnded)) _ = _
    rw [if_pos hle]
    rfl
  · rw [if_neg hle] at hrest
    obtain rfl := (snd_of_onFirst hrest).1
    obtain rfl := Option.some.inj hlimit
    exact absurd hreached hle

theorem Value.taking_asks_nothing {p p' : Puller} (hnumber : p.number = p'.number) {e : Bool}
    (hrun : answer p (.list .ended) (taking name ty count list state, w) =
      .ok e (taking name ty count' list' ⟨some limit, state.position⟩, w'))
    (hreached : limit ≤ state.position) :
    e = true ∧ list' = list ∧ answer p' (.list .ended) (taking name ty count list state, w) =
      .ok e (taking name ty count' list' ⟨some limit, state.position⟩, w') := by
  have hanswer (p : Puller) : answer p (.list .ended) (taking name ty count list state, w) =
      onTask ⟨name, ty, [count, list]⟩ state .take (Take.ended p) (taking name ty count list state, w) := rfl
  rw [hanswer, onTask, within_run] at hrun ⊢
  obtain ⟨⟨⟨⟨name', ty', args⟩, state'⟩, v⟩, hended, hleft, rfl⟩ := Result.on_eq_ok_iff.1 hrun
  cases hleft
  obtain ⟨rfl, ⟨_, hb⟩, hsame⟩ := Take.ended_asks_nothing hnumber hended rfl hreached
  cases hb
  rw [hsame]
  exact ⟨rfl, rfl, rfl⟩

end

namespace ListView

structure Endless (feed : Feed) (l : ListView) : Prop where
  ended : ∀ k, (l.ended k).Gives feed false
  step : ∀ k, (l.step k).Gives feed ()
  item : ∀ k x, (l.item k).Gives feed x ↔ (l.item 0).Gives feed x

variable {feed : Feed} {l l' : ListView}

theorem Alike.endless (h : l.Alike feed l') (hl : l.Endless feed) : l'.Endless feed where
  ended k := (h.ended k false).1 (hl.ended k)
  step k := (h.step k).1 (hl.step k)
  item k x := (h.item k x).symm.trans ((hl.item k x).trans (h.item 0 x))

theorem endless_endless (value : View Value) : (ListView.endless value).Endless feed :=
  ⟨fun _ => .pure _, fun _ => .pure _, fun _ _ => .rfl⟩

theorem Endless.mapped {change : Nat → Value → View Value} (h : l.Endless feed)
    (hchange : ∀ k item, change k item = change 0 item) : (l.mapped change).Endless feed where
  ended := h.ended
  step := h.step
  item k x := by
    change (l.item k >>= change k).Gives feed x ↔ (l.item 0 >>= change 0).Gives feed x
    simp only [View.gives_bind_iff, h.item k, hchange k]

theorem Endless.zipped {combine : Value → Value → View Value} (h : l.Endless feed) (h' : l'.Endless feed) :
    (l.zipped l' combine).Endless feed where
  ended k := (h.ended k).bind (h'.ended k)
  step k := (h.step k).bind (h'.step k)
  item k x := by
    change (l.item k >>= fun a => l'.item k >>= combine a).Gives feed x ↔
      (l.item 0 >>= fun a => l'.item 0 >>= combine a).Gives feed x
    simp only [View.gives_bind_iff, h.item k, h'.item k]

theorem Endless.shows (h : l.Endless feed) {item : Value} (hitem : (l.item 0).Gives feed item) (n : Nat) :
    l.Shows feed (List.replicate n item) := by
  intro k x hx
  rw [List.getElem?_replicate] at hx
  split at hx
  case isFalse => cases hx
  obtain rfl := Option.some.inj hx
  exact ⟨h.ended k, (h.item k _).2 hitem, h.step k⟩

end ListView

namespace Value

variable {feed : Feed} {n : Nat} {s : Value × World}

/-- Lists without an end: one value over and over, functions applied to the items of such lists, and such
lists under a name or with their items coerced. -/
inductive Unending : Value → Prop
  | repeated (name : String) (ty : Ty) (value : Value) : Unending (.suspended name ty [value] .repeat)
  | map (name : String) (ty : Ty) (f : Value) {list : Value} :
    Unending list → Unending (.suspended name ty [f, list] .map)
  | zipWith (name : String) (ty : Ty) (f : Value) {left right : Value} :
    Unending left → Unending right → Unending (.suspended name ty [f, left, right] .zipWith)
  | recast (element : Ty) (endless tuple : Bool) (position : Nat) {list : Value} :
    Unending list → Unending (.recast (.lst [element] endless tuple) list position)
  | defined (name doc : String) {list : Value} : Unending list → Unending (.defined name doc list)

theorem Unending.kind_eq {list : Value} (h : list.Unending) : list.kind = .lst := by
  induction h with
  | defined _ _ _ ih => exact ih
  | _ => rfl

theorem Unending.endless {list : Value} (h : list.Unending) : (ListView.of list).Endless feed := by
  refine (ListView.alike_ofValue h.kind_eq).symm.endless ?_
  induction h with
  | repeated name ty value => exact ListView.endless_endless _
  | map name ty f hlist ih =>
    have hargs := (ListView.alike_ofValue hlist.kind_eq).symm.endless ih
    exact ((ListView.alike_arg rfl).symm.endless hargs).mapped fun _ _ => rfl
  | zipWith name ty f hleft hright ihleft ihright =>
    have hl := (ListView.alike_ofValue hleft.kind_eq).symm.endless ihleft
    have hr := (ListView.alike_ofValue hright.kind_eq).symm.endless ihright
    exact ((ListView.alike_arg rfl).symm.endless hl).zipped ((ListView.alike_arg rfl).symm.endless hr)
  | recast element endless tuple position hlist ih =>
    have hlist' := (ListView.alike_ofValue hlist.kind_eq).symm.endless ih
    exact hlist'.mapped fun k item => by simp [Ty.elements, Nat.mod_one]
  | defined name doc hlist ih => exact (ListView.alike_ofValue hlist.kind_eq).symm.endless ih

variable {name : String} {ty : Ty} {count list : Value} {items : List Value} {w : World} {x : Float}

theorem unpulled_taking (hcount : count.Unpulled) (hlist : list.Unpulled) :
    (taking name ty count list {}).Unpulled :=
  ⟨⟨hcount, hlist, trivial⟩, rfl⟩

theorem alike_taking : (ListView.of (taking name ty count list {})).Alike feed
    ((ListView.arg ⟨name, ty, [count, list]⟩ 1).taken (View.argCount ⟨name, ty, [count, list]⟩ 0)) :=
  ListView.alike_ofValue rfl

theorem Unpulled.number_gives (h : count.Unpulled) (hrun : (puller n).number (count, w) = .ok x s) :
    (View.ask count .number).Gives w.feed x :=
  ((pulls w.feed n).number h h.at_start).gives (steady_puller n).number.quiet_run hrun

theorem gives_argCount (h : (View.ask count .number).Gives feed x) :
    (View.argCount ⟨name, ty, [count, list]⟩ 0).Gives feed (countOf x) :=
  View.Gives.bind (View.Gives.bind (View.gives_arg_iff.2 rfl) h) (.pure _)

theorem seenFrom_steps {k : Nat} {asks : List Asked}
    (hmore : ∀ i < n, ((ListView.of list).ended (k + i)).Gives feed false ∧ ((ListView.of list).step (k + i)).Gives feed ())
    (hrest : Asked.SeenFrom feed list (k + n) asks) :
    Asked.SeenFrom feed list k ((List.replicate n [.ended false, .advance]).flatten ++ asks) := by
  induction n generalizing k with
  | zero => exact hrest
  | succ n ih =>
    have hothers : Asked.SeenFrom feed list (k + 1) ((List.replicate n [.ended false, .advance]).flatten ++ asks) :=
      ih (fun i hi => by
        rw [show k + 1 + i = k + (i + 1) by omega]
        exact hmore (i + 1) (by omega)) (by rwa [show k + 1 + n = k + (n + 1) by omega])
    exact ⟨(hmore 0 (Nat.succ_pos n)).1, (hmore 0 (Nat.succ_pos n)).2, hothers⟩

theorem calls_take {registry : Registry} (h : Registry.standard = .ok registry) (hcount : count.kind = .num)
    (hlist : list.kind = .lst) : ∃ f ty, registry.lookup? "take" = some f ∧
      Calls f [count, list] (taking "take" ty count.copy (list.recastTo (.lst [.unknown "a_take"] true false)) {}) := by
  have hsig : Ty.parse "Num -> [a]* -> [a]*" =
      .ok (.arrow .num (.arrow (.lst [.unknown "a"] true false) (.lst [.unknown "a"] true false))) := by cbv
  obtain ⟨doc, hfound⟩ : ∃ doc, registry.lookup? "take" =
      some (.head ⟨"take", "Num -> [a]* -> [a]*", 2, doc, .take⟩ _) :=
    Registry.lookup?_of_standard h (by simp [Catalogue.standard, Catalogue.list]) hsig
  refine ⟨_, _, hfound, .given (fun _ hkind => ?_) (coerced_num hcount) rfl
    (.given (fun hnum => ?_) (coerced_lst hlist ..) rfl (.none _))⟩
  · rw [hcount] at hkind
    cases hkind
  · cases hnum

theorem Unending.recastTo {element : Ty} {endless tuple : Bool} (h : list.Unending) (hty : list.ty = .lst [element] endless tuple)
    (unknown : String) : (list.recastTo (.lst [.unknown unknown] true false)).Unending := by
  have htarget : Ty.instantiated (.lst [.unknown unknown] true false) list.ty = .lst [element] true false := by
    rw [hty]
    simp [Ty.instantiated, Ty.Match.find, Ty.Match.findAll, Ty.Match.bind, Ty.Match.track, Ty.Match.replace,
      Ty.Match.replaceAll, Ty.Match.get, Ty.elements]
  unfold Value.recastTo
  rw [htarget]
  dsimp only
  split
  · exact h
  · exact .recast element true false 0 h

theorem taking_drains (name : String) (ty : Ty) (hcount : count.Unpulled) (hlist : list.Unpulled)
    (hrun : (puller n).number (count, w) = .ok x s) :
    (∀ items, (ListView.of list).Shows w.feed items → countOf x ≤ items.length →
      (taking name ty count list {}).Drains w (items.take (countOf x))) ∧
    ∀ items, (ListView.of list).Holds w.feed items →
      (taking name ty count list {}).Drains w (items.take (countOf x)) := by
  have hlimit : (View.argCount ⟨name, ty, [count, list]⟩ 0).Gives w.feed (countOf x) := gives_argCount (hcount.number_gives hrun)
  have harg : (ListView.of list).Alike w.feed (ListView.arg ⟨name, ty, [count, list]⟩ 1) := (ListView.alike_arg rfl).symm
  refine ⟨fun items hshows hle => ?_, fun items hholds => ?_⟩ <;> rw [(unpulled_taking hcount hlist).drains_iff]
  · exact alike_taking.symm.holds ((harg.shows hshows).taken_ends hlimit hle)
  · exact alike_taking.symm.holds ((harg.holds hholds).taken hlimit)

theorem Unending.taking_walked (hunending : list.Unending) (hcount : count.Unpulled) (hlist : list.Unpulled)
    (hrun : (puller n).number (count, w) = .ok x s) :
    ∃ t, Walked (taking name ty count list {}, w)
      ((List.replicate (countOf x) [.ended false, .advance]).flatten ++ [.ended true]) t := by
  have hlimit : (View.argCount ⟨name, ty, [count, list]⟩ 0).Gives w.feed (countOf x) := gives_argCount (hcount.number_gives hrun)
  have hendless : (ListView.arg ⟨name, ty, [count, list]⟩ 1).Endless w.feed := (ListView.alike_arg rfl).symm.endless hunending.endless
  have htaking : (taking name ty count list {}).Unpulled := unpulled_taking hcount hlist
  refine ((htaking.on w).walked_iff htaking).2 (seenFrom_steps (fun i hi => ?_) ⟨?_, trivial⟩) <;> rw [Nat.zero_add]
  · refine ⟨(alike_taking.ended i false).2 ((ListView.gives_ended_taken hlimit).2 ?_), (alike_taking.step i).2 (hendless.step i)⟩
    rw [if_neg (Nat.not_le.2 hi)]
    exact hendless.ended i
  · exact (alike_taking.ended _ _).2 ((ListView.gives_ended_taken hlimit).2 (by rw [if_pos (Nat.le_refl _)]))

/-- Taking the first items of a list asks the list for nothing behind them. Where the limit has been reached it
does not matter how lists would answer. Draining comes to an end with the first items of any list that gives as
many, whatever the list would do then, and with all items of a list that has fewer; of a list without an end it
takes as many items as the count says. -/
theorem take_cuts_off {registry : Registry} (hregistry : Registry.standard = .ok registry) :
    (∀ count list : Value, count.kind = .num → list.kind = .lst →
      (∃ f ty, registry.lookup? "take" = some f ∧ Calls f [count, list]
        (taking "take" ty count.copy (list.recastTo (.lst [.unknown "a_take"] true false)) {})) ∧
      ∀ element endless tuple, list.Unending → list.ty = .lst [element] endless tuple →
        (list.recastTo (.lst [.unknown "a_take"] true false)).Unending) ∧
    ∀ (name : String) (ty : Ty) (count list : Value) (w : World),
      (∀ (p p' : Puller) state e count' list' limit w', p.number = p'.number → limit ≤ state.position →
        answer p (.list .ended) (taking name ty count list state, w) =
          .ok e (taking name ty count' list' ⟨some limit, state.position⟩, w') →
        e = true ∧ list' = list ∧ answer p' (.list .ended) (taking name ty count list state, w) =
          .ok e (taking name ty count' list' ⟨some limit, state.position⟩, w')) ∧
      ∀ n x s, count.Unpulled → list.Unpulled → (puller n).number (count, w) = .ok x s →
        (∀ items, list.Feeds w items → countOf x ≤ items.length →
          (taking name ty count list {}).Drains w (items.take (countOf x))) ∧
        (∀ items, list.Drains w items → (taking name ty count list {}).Drains w (items.take (countOf x))) ∧
        (list.Unending →
          (∃ t, Walked (taking name ty count list {}, w)
            ((List.replicate (countOf x) [.ended false, .advance]).flatten ++ [.ended true]) t) ∧
          ∀ m item t, (puller m).current (list, w) = .ok item t →
            (taking name ty count list {}).Drains w (List.replicate (countOf x) item)) := by
  refine ⟨fun count list hcount hlist => ⟨calls_take hregistry hcount hlist, fun element endless tuple hunending hty =>
    hunending.recastTo hty "a_take"⟩, fun name ty count list w => ⟨?_, ?_⟩⟩
  · intro p p' state e count' list' limit w' hnumber hreached hrun
    exact taking_asks_nothing hnumber hrun hreached
  · intro n x s hcount hlist hrun
    obtain ⟨hfew, hall⟩ := taking_drains name ty hcount hlist hrun
    refine ⟨fun items hfeeds => hfew items ((hlist.feeds_iff w).1 hfeeds),
      fun items hdrains => hall items ((hlist.drains_iff w).1 hdrains),
      fun hunending => ⟨hunending.taking_walked hcount hlist hrun, fun m item t hcurrent => ?_⟩⟩
    have hitem : (Asked.current item).Seen w.feed list 0 := (Asked.Gets.seen hlist (hlist.on w) (.current hcurrent)).1
    have hdrains := hfew _ (hunending.endless.shows hitem (countOf x)) (by rw [List.length_replicate])
    rwa [List.take_replicate, Nat.min_self] at hdrains

def faulty (position : Nat) : Value :=
  .recast (.lst [.num] false false)
    (.list [.num, .num, .str false] [.number 1, .number 2, .textOf [97]] position) position

def endlessOnes : Value :=
  .suspended "map" (.lst [.num] true false)
    [.curried ⟨"id", "a -> a", 1, "the value itself", .give .itself 0⟩ (.arrow (.unknown "a_id") (.unknown "a_id")) [],
      .suspended "repeat" (.lst [.num] true false) [.number 1] .repeat] .map

theorem unpulled_faulty : (faulty 0).Unpulled :=
  ⟨⟨⟨trivial, trivial, rfl, trivial⟩, rfl⟩, rfl⟩

theorem unpulled_endlessOnes : endlessOnes.Unpulled :=
  ⟨⟨trivial, ⟨⟨trivial, trivial⟩, trivial⟩, trivial⟩, trivial⟩

theorem feeds_faulty : Walked (faulty 0, {}) (Asked.rounds [.number 1, .number 2]) (faulty 2, {}) := by
  have hmore : (Asked.ended false).Gets (faulty 0, {}) (faulty 0, {}) := .ended (n := 9) (by cbv)
  have hfirst : (Asked.current (.number 1)).Gets (faulty 0, {}) (faulty 0, {}) := .current (n := 9) (by cbv)
  have hstep : Asked.advance.Gets (faulty 0, {}) (faulty 1, {}) := .advance (n := 9) (by cbv)
  have hmore' : (Asked.ended false).Gets (faulty 1, {}) (faulty 1, {}) := .ended (n := 9) (by cbv)
  have hsecond : (Asked.current (.number 2)).Gets (faulty 1, {}) (faulty 1, {}) := .current (n := 9) (by cbv)
  have hstep' : Asked.advance.Gets (faulty 1, {}) (faulty 2, {}) := .advance (n := 9) (by cbv)
  exact .cons hmore (.cons hfirst (.cons hstep (.cons hmore' (.cons hsecond (.cons hstep' (.nil _))))))

/-- Two items of a list that fails behind them, two items of a list without an end, and none at all of something
that is not even a list. -/
theorem take_cuts_off_two : ∃ registry f ty, Registry.standard = .ok registry ∧ registry.lookup? "take" = some f ∧
    Calls f [.number 2, endlessOnes] (taking "take" ty (.number 2) endlessOnes {}) ∧
    (taking "take" ty (.number 2) endlessOnes {}).Drains {} [.number 1, .number 1] ∧
    (faulty 0).Feeds {} [.number 1, .number 2] ∧
    (puller 9).current (faulty 2, {}) = .error (.failed (.coercion (.str false) .num)) (faulty 2, {}) ∧
    (taking "take" ty (.number 2) (faulty 0) {}).Drains {} [.number 1, .number 2] ∧
    (taking "take" ty (.number 0) (.number 5) {}).Drains {} [] := by
  obtain ⟨registry, hregistry⟩ := Registry.exists_standard
  obtain ⟨hcalls, htaking⟩ := take_cuts_off hregistry
  obtain ⟨f, ty, hfound, hcall⟩ := (hcalls (.number 2) endlessOnes rfl rfl).1
  have hsame : endlessOnes.recastTo (.lst [.unknown "a_take"] true false) = endlessOnes := by cbv
  rw [hsame] at hcall
  have htwo : countOf 2 = 2 := by decide +kernel
  have hnone : countOf 0 = 0 := by decide +kernel
  have hnumber (x : Float) : (puller 1).number (.number x, {}) = .ok x (.number x, {}) := rfl
  have hunending : endlessOnes.Unending := .map _ _ _ (.repeated _ _ _)
  have hcurrent : (puller 9).current (endlessOnes, {}) = .ok (.number 1) (endlessOnes, {}) := by cbv
  have hones := ((htaking "take" ty (.number 2) endlessOnes {}).2 1 2 _ trivial unpulled_endlessOnes (hnumber 2)).2.2
    hunending
  have hfaulty := ((htaking "take" ty (.number 2) (faulty 0) {}).2 1 2 _ trivial unpulled_faulty (hnumber 2)).1 _
    ⟨_, feeds_faulty⟩
  have hnothing := ((htaking "take" ty (.number 0) (.number 5) {}).2 1 0 _ trivial trivial (hnumber 0)).1 [] ⟨_, .nil _⟩
  rw [htwo] at hones hfaulty
  rw [hnone] at hnothing
  refine ⟨registry, f, ty, hregistry, hfound, hcall, hones.2 9 _ _ hcurrent, ⟨_, feeds_faulty⟩, by cbv, ?_, ?_⟩
  · exact hfaulty (Nat.le_refl _)
  · exact hnothing (Nat.le_refl _)

end Value

end PullScript
