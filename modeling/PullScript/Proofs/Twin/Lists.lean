import PullScript.Proofs.Twin.Cutting

namespace PullScript

open Act

variable {item item' : Option Value} {α : Type} {act : Act Value α} {act' : Nat → Act Value α}

variable {m : Mode} {p : Puller}

theorem copyItem_agreeFrom {σ : Type} [Twinned σ] {s t : σ} (hst : twin m.ports s t) :
    Value.OptionTwin m.ports item item' → AgreeFrom m s t (match item with
        | some item => return item.copy
        | none => fail (.runtime .pastEnd) : Act σ Value)
      fun _ => (match item' with
        | some item => return item.copy
        | none => fail (.runtime .pastEnd) : Act σ Value) := by
  intro hitem
  cases hitem with
  | none => exact .fail _ hst
  | some hitem => exact .pure hitem.copy hst

theorem Value.OptionTwin.isSome_eq (h : Value.OptionTwin m.ports item item') : item.isSome = item'.isSome := by
  cases h <;> rfl

theorem Value.OptionTwin.isNone_eq (h : Value.OptionTwin m.ports item item') : item.isNone = item'.isNone := by
  cases h <;> rfl

theorem answerItems_agree {items items' : List Value} (hitems : Value.AllTwin m.ports items items') (ask : ListAsk) :
    Agree m (answerItems items ask) fun _ => answerItems items' ask := by
  cases ask with
  | current =>
    refine .look ?_
    rintro position _ rfl
    exact copyItem_agreeFrom (show twin m.ports position position from rfl) (hitems.getElem? position)
  | advance =>
    unfold answerItems
    refine .change ?_
    rintro position _ rfl
    exact congrArg (if · = true then position + 1 else position) (hitems.getElem? position).isSome_eq
  | ended =>
    refine .look ?_
    rintro position _ rfl
    exact .pure (hitems.getElem? position).isNone_eq rfl
  | rewind => exact fun _ _ _ => .put_end rfl
  | count => exact .pure hitems.length_eq

section Asking

variable (h : Asks m.ports p)
include h

theorem answerRecast_agree (ty : Ty) (ask : ListAsk) : Agreed m p (answerRecast · ty ask) := by
  cases ask with
  | current =>
    refine .bind (.onFirst h.current) fun item item' hitem => .look ?_
    rintro ⟨source, position⟩ ⟨source', _⟩ ⟨hsource, rfl⟩
    dsimp only
    split
    · exact coerce_agree h hitem _ ⟨hsource, rfl⟩
    · exact .pure hitem ⟨hsource, rfl⟩
  | advance =>
    refine .bind (.onFirst h.advance) fun _ _ _ => .change ?_
    rintro ⟨source, position⟩ ⟨source', _⟩ ⟨hsource, rfl⟩
    exact ⟨hsource, rfl⟩
  | ended => exact .onFirst h.listEnded
  | rewind => exact .bind (.onFirst h.rewind) fun _ _ _ => .change fun _ _ hst => ⟨hst.1, rfl⟩
  | count => exact .onFirst h.count

variable [Bound.Tied]

theorem answerMap_agree (ask : ListAsk) : Agreed m p (answerMap · ask) := by
  cases ask with
  | current => exact .bind (Bound.on_agree 1 h.current) fun _ _ hitem => Bound.applyArg_agree h 0 hitem
  | advance => exact Bound.on_agree 1 h.advance
  | ended => exact Bound.on_agree 1 h.listEnded
  | rewind => exact Bound.on_agree 1 h.rewind
  | count => exact Bound.on_agree 1 h.count

omit h in
theorem answerRepeat_agree (ask : ListAsk) : Agree m (answerRepeat p ask) fun n => answerRepeat (puller n) ask := by
  cases ask with
  | current => exact .bind (Bound.arg_agree 0) fun _ _ hvalue => .pure hvalue.copy
  | advance => exact .pure rfl
  | ended => exact .pure rfl
  | rewind => exact .pure rfl
  | count => exact countBySteps_agree (.pure rfl) (.pure rfl) (.pure rfl) p.fuel

namespace ZipWith

theorem advance_agree : Agreed m p advance :=
  .bind (Bound.on_agree 1 h.advance) fun _ _ _ => Bound.on_agree 2 h.advance

theorem ended_agree : Agreed m p ended := by
  refine .bind (Bound.on_agree 1 h.listEnded) ?_
  rintro ended _ rfl
  cases ended with
  | true => exact .pure rfl
  | false => exact Bound.on_agree 2 h.listEnded

theorem rewind_agree : Agreed m p rewind :=
  .bind (Bound.on_agree 1 h.rewind) fun _ _ _ => Bound.on_agree 2 h.rewind

theorem answer_agree (ask : ListAsk) : Agreed m p (answer · ask) := by
  cases ask with
  | current =>
    refine .bind (Bound.on_agree 1 h.current) fun left left' hleft => ?_
    refine .bind ((Bound.on_agree 2 h.current).holding (.singleton hleft)) fun right right' hright => ?_
    refine .bind ((Bound.applyArg_agree h 0 hleft).holding (.singleton hright)) fun half half' hhalf => ?_
    exact .bind ((h.apply hright).aside hhalf) fun _ _ hresult => .pure hresult.1
  | advance => exact advance_agree h
  | ended => exact ended_agree h
  | rewind => exact rewind_agree h
  | count => exact countBySteps_agree (rewind_agree h) (ended_agree h) (advance_agree h) p.fuel

end ZipWith

theorem countArg_agree (k : Nat) : Agreed m p (countArg · k) := by
  refine .bind (Bound.on_agree k h.number) ?_
  rintro n _ rfl
  exact .pure rfl

namespace Take

theorem readLimit_agree : Agreed m p readLimit := by
  refine .look ?_
  rintro ⟨b, ⟨limit, position⟩⟩ ⟨b', _⟩ ⟨hb, rfl⟩
  cases limit with
  | some limit => exact .pure rfl ⟨hb, rfl⟩
  | none =>
    refine .bind (Agree.onFirst (countArg_agree h 0) ⟨hb, rfl⟩) ?_
    rintro limit _ ⟨b, state⟩ ⟨b', _⟩ rfl ⟨hb, rfl⟩
    exact .change (.pure rfl ⟨hb, rfl⟩)

theorem ended_agree : Agreed m p ended := by
  refine .bind (readLimit_agree h) ?_
  rintro limit _ rfl
  refine .look ?_
  rintro ⟨b, state⟩ ⟨b', _⟩ ⟨hb, rfl⟩
  dsimp only
  split
  · exact .pure rfl ⟨hb, rfl⟩
  · exact Agree.onFirst (Bound.on_agree 1 h.listEnded) ⟨hb, rfl⟩

theorem advance_agree : Agreed m p advance := by
  refine .bind (.onFirst (Bound.on_agree 1 h.advance)) fun _ _ _ => .change ?_
  rintro ⟨b, state⟩ ⟨b', _⟩ ⟨hb, rfl⟩
  exact ⟨hb, rfl⟩

theorem rewind_agree : Agreed m p rewind := by
  refine .bind (.onFirst (Bound.on_agree 1 h.rewind)) fun _ _ _ => .change ?_
  rintro ⟨b, state⟩ ⟨b', _⟩ ⟨hb, rfl⟩
  exact ⟨hb, rfl⟩

theorem answer_agree (ask : ListAsk) : Agreed m p (answer · ask) := by
  cases ask with
  | current =>
    refine .bind (ended_agree h) ?_
    rintro ended _ rfl
    cases ended with
    | true => exact .fail _
    | false => exact .onFirst (Bound.on_agree 1 h.current)
  | advance => exact advance_agree h
  | ended => exact ended_agree h
  | rewind => exact rewind_agree h
  | count => exact countBySteps_agree (rewind_agree h) (ended_agree h) (advance_agree h) p.fuel

end Take

namespace Drop

theorem after_agree [Twinned α] (hact : Agree m act act') :
    Agree m (after p act) fun n => after (puller n) (act' n) := by
  refine .look ?_
  rintro ⟨b, skipped⟩ ⟨b', _⟩ ⟨hb, rfl⟩
  cases skipped with
  | true => exact Agree.onFirst (Bound.on_agree 1 hact) ⟨hb, rfl⟩
  | false =>
    refine .bind (Agree.onFirst (countArg_agree h 0) ⟨hb, rfl⟩) ?_
    rintro n _ s t rfl hst
    refine .bind (Agree.onFirst (Bound.on_agree 1 (skipItems_agree h n)) hst) fun _ _ s t _ hst => ?_
    exact .change (Agree.onFirst (Bound.on_agree 1 hact) ⟨hst.1, rfl⟩)

theorem rewind_agree : Agreed m p rewind :=
  .bind (.onFirst (Bound.on_agree 1 h.rewind)) fun _ _ _ => .change fun _ _ hst => ⟨hst.1, rfl⟩

theorem answer_agree (ask : ListAsk) : Agreed m p (answer · ask) := by
  cases ask with
  | current => exact after_agree h h.current
  | advance => exact after_agree h h.advance
  | ended => exact after_agree h h.listEnded
  | rewind => exact rewind_agree h
  | count =>
    exact countBySteps_agree (rewind_agree h) (after_agree h h.listEnded) (after_agree h h.advance) p.fuel

end Drop

namespace Tail

theorem after_agree [Twinned α] (hact : Agree m act act') :
    Agree m (after p act) fun n => after (puller n) (act' n) := by
  have hstart : Agree m (do
        if ← p.listEnded then fail (.runtime .tailOfEmpty)
        p.advance)
      fun n => (do
        if ← (puller n).listEnded then fail (.runtime .tailOfEmpty)
        (puller n).advance) := by
    refine .bind h.listEnded ?_
    rintro ended _ rfl
    cases ended with
    | true => exact .bind (.fail _) fun _ _ _ => h.advance
    | false => exact h.advance
  refine .look ?_
  rintro ⟨b, started⟩ ⟨b', _⟩ ⟨hb, rfl⟩
  cases started with
  | true => exact Agree.onFirst (Bound.on_agree 0 hact) ⟨hb, rfl⟩
  | false =>
    refine .bind (Agree.onFirst (Bound.on_agree 0 hstart) ⟨hb, rfl⟩) fun _ _ s t _ hst => ?_
    exact .change (Agree.onFirst (Bound.on_agree 0 hact) ⟨hst.1, rfl⟩)

theorem rewind_agree : Agreed m p rewind :=
  .bind (.onFirst (Bound.on_agree 0 h.rewind)) fun _ _ _ => .change fun _ _ hst => ⟨hst.1, rfl⟩

theorem answer_agree (ask : ListAsk) : Agreed m p (answer · ask) := by
  cases ask with
  | current => exact after_agree h h.current
  | advance => exact after_agree h h.advance
  | ended => exact after_agree h h.listEnded
  | rewind => exact rewind_agree h
  | count =>
    exact countBySteps_agree (rewind_agree h) (after_agree h h.listEnded) (after_agree h h.advance) p.fuel

end Tail

namespace Init

theorem start_agree : Agreed m p start := by
  refine .look ?_
  rintro ⟨b, ⟨held, started⟩⟩ ⟨b', ⟨held', _⟩⟩ ⟨hb, hheld, rfl⟩
  cases started with
  | true => exact .pure rfl ⟨hb, hheld, rfl⟩
  | false =>
    refine .bind (Agree.onFirst (Bound.on_agree 0 h.next) ⟨hb, hheld, rfl⟩) fun first first' s t hfirst hst => ?_
    cases hfirst with
    | none => exact .fail _ hst
    | some hfirst => exact .change_end ⟨hst.1, .some hfirst, rfl⟩

theorem ended_agree : Agreed m p ended := by
  refine .bind (start_agree h) fun _ _ _ => .look ?_
  rintro ⟨b, ⟨held, started⟩⟩ ⟨b', ⟨held', _⟩⟩ ⟨hb, hheld, rfl⟩
  cases hheld with
  | none => exact .pure rfl ⟨hb, .none, rfl⟩
  | some hheld => exact Agree.onFirst (Bound.on_agree 0 h.listEnded) ⟨hb, .some hheld, rfl⟩

theorem advance_agree : Agreed m p advance := by
  refine .bind (start_agree h) fun _ _ _ => ?_
  exact .bind (.onFirst (Bound.on_agree 0 h.next)) fun _ _ hheld => .change fun _ _ hst =>
    ⟨hst.1, hheld, hst.2.2⟩

theorem rewind_agree : Agreed m p rewind :=
  .bind (.onFirst (Bound.on_agree 0 h.rewind)) fun _ _ _ => .change fun _ _ hst => ⟨hst.1, .none, rfl⟩

theorem answer_agree (ask : ListAsk) : Agreed m p (answer · ask) := by
  cases ask with
  | current =>
    refine .bind (ended_agree h) ?_
    rintro ended _ rfl
    cases ended with
    | true => exact .bind (.fail _) fun _ _ _ => .look fun s t hst => copyItem_agreeFrom hst hst.2.1
    | false => exact .look fun s t hst => copyItem_agreeFrom hst hst.2.1
  | advance => exact advance_agree h
  | ended => exact ended_agree h
  | rewind => exact rewind_agree h
  | count => exact countBySteps_agree (rewind_agree h) (ended_agree h) (advance_agree h) p.fuel

end Init

namespace Reverse

theorem collect_agree : Agreed m p collect := by
  refine .look ?_
  rintro ⟨b, ⟨items, position⟩⟩ ⟨b', ⟨items', _⟩⟩ ⟨hb, hitems, rfl⟩
  cases hitems with
  | some hitems => exact .pure hitems ⟨hb, .some hitems, rfl⟩
  | none =>
    refine .bind (Agree.onFirst (Bound.on_agree 0 (drainItems_agree h)) ⟨hb, .none, rfl⟩) ?_
    intro items items' s t hitems hst
    exact .change (.pure hitems ⟨hst.1, .some hitems, hst.2.2⟩)

theorem answer_agree (ask : ListAsk) : Agreed m p (answer · ask) := by
  cases ask with
  | current =>
    refine .bind (collect_agree h) fun items items' hitems => .look fun s t hst => ?_
    rw [hst.2.2]
    exact copyItem_agreeFrom hst (hitems.getElem? _)
  | advance =>
    unfold answer
    exact .change fun s t hst => ⟨hst.1, hst.2.1, congrArg (· + 1) hst.2.2⟩
  | ended =>
    refine .bind (collect_agree h) fun items items' hitems => .look fun s t hst => ?_
    rw [hst.2.2]
    exact .pure (hitems.getElem? _).isNone_eq hst
  | rewind =>
    unfold answer
    exact .change fun s t hst => ⟨hst.1, hst.2.1, rfl⟩
  | count => exact .bind (collect_agree h) fun _ _ hitems => .pure hitems.length_eq

end Reverse

end Asking

end PullScript
