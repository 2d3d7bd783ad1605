import PullScript.Proofs.Twin.Asks

namespace PullScript

open Act

variable {m : Mode} {p : Puller} (h : Asks m.ports p)
include h

theorem streamMore_agree : Agreed m p streamMore :=
  .gather (h.stream rfl)

namespace Cutter

omit h in
theorem onPending_agree {α : Type} [Twinned α] {m : Mode} {act : Act (Bytes × Value) α}
    {act' : Nat → Act (Bytes × Value) α} (hact : Agree m act act') :
    Agree m (onPending act) fun n => onPending (act' n) := by
  refine .look ?_
  rintro ⟨cutter, source⟩ ⟨_, source'⟩ ⟨rfl, hsource⟩
  refine .within (hact ⟨rfl, hsource⟩) ?_
  rintro ⟨pending, source⟩ ⟨_, source'⟩ ⟨rfl, hsource⟩
  exact ⟨rfl, hsource⟩

theorem settle_agree (unit : TextUnit) : Agreed m p (settle · unit) := by
  refine .loop ?_ p.fuel rfl
  rintro ⟨⟩ _ - 
  refine .look ?_
  rintro ⟨cutter, source⟩ ⟨_, source'⟩ ⟨rfl, hsource⟩
  dsimp only
  split
  · exact .pure (.inr rfl) ⟨rfl, hsource⟩
  · refine .bind (Agree.onSecond h.textEnded ⟨rfl, hsource⟩) ?_
    rintro ended _ s t rfl hst
    cases ended with
    | true => exact .pure (.inr rfl) hst
    | false =>
      refine .bind (onPending_agree (streamMore_agree h) hst) ?_
      rintro _ _ s t - hst
      exact .pure (.inl rfl) hst

theorem next_agree (unit : TextUnit) : Agreed m p (next · unit) := by
  refine .bind (settle_agree h unit) fun _ _ _ => .look ?_
  rintro ⟨cutter, source⟩ ⟨_, source'⟩ ⟨rfl, hsource⟩
  dsimp only
  split
  · exact .pure rfl ⟨rfl, hsource⟩
  · exact .change (.pure rfl ⟨rfl, hsource⟩)

theorem fetch_agree (unit : TextUnit) : Agreed m p (fetch · unit) := by
  refine .look ?_
  rintro ⟨cutter, source⟩ ⟨_, source'⟩ ⟨rfl, hsource⟩
  dsimp only
  split
  · refine .bind (next_agree h unit ⟨rfl, hsource⟩) ?_
    rintro current _ ⟨cutter, source⟩ ⟨_, source'⟩ rfl ⟨rfl, hsource⟩
    exact .change_end ⟨rfl, hsource⟩
  · exact .pure rfl ⟨rfl, hsource⟩

omit h in
theorem item_twin (unit : TextUnit) (bytes : Bytes) : Value.Twin m.ports (item unit bytes) (item unit bytes) := by
  cases unit with
  | codePoint =>
    unfold item
    dsimp only
    split <;> exact .number _
  | grapheme => exact .text bytes false

theorem answer_agree (ty : Ty) (unit : TextUnit) (ask : ListAsk) : Agreed m p (answer · ty unit ask) := by
  cases ask with
  | current =>
    refine .bind (.bind (fetch_agree h unit) fun _ _ _ => .look ?_) ?_
    · rintro ⟨cutter, source⟩ ⟨_, source'⟩ ⟨rfl, hsource⟩
      dsimp only
      split
      · exact .pure rfl ⟨rfl, hsource⟩
      · exact .fail _ ⟨rfl, hsource⟩
    · rintro bytes _ rfl
      exact .pure (item_twin unit bytes)
  | advance =>
    refine .bind (fetch_agree h unit) fun _ _ _ => .change ?_
    rintro ⟨cutter, source⟩ ⟨_, source'⟩ ⟨rfl, hsource⟩
    exact ⟨rfl, hsource⟩
  | ended =>
    refine .bind (fetch_agree h unit) fun _ _ _ => .look ?_
    rintro ⟨cutter, source⟩ ⟨_, source'⟩ ⟨rfl, hsource⟩
    exact .pure rfl ⟨rfl, hsource⟩
  | rewind => exact .fail _
  | count => exact .fail _

end Cutter

variable [Bound.Tied]

theorem answerUnits_agree (unit : TextUnit) (ask : ListAsk) : Agreed m p (answerUnits · unit ask) := by
  refine .bind (.onFirst (Bound.arg_agree 0)) fun source source' hsource => .look ?_
  rintro ⟨b, cutter⟩ ⟨b', _⟩ ⟨⟨hname, hty, hargs⟩, rfl⟩
  dsimp only
  rw [hty.1, hty.2]
  exact .within (Cutter.answer_agree h _ unit ask ⟨rfl, hsource⟩)
    fun q q' hq => ⟨⟨hname, ⟨rfl, rfl⟩, hargs.set 0 hq.2⟩, hq.1⟩

namespace ByteList

theorem fill_agree : Agreed m p fill := by
  refine .loop ?_ p.fuel rfl
  rintro ⟨⟩ _ -
  refine .look ?_
  rintro ⟨b, ahead⟩ ⟨b', _⟩ ⟨hb, rfl⟩
  dsimp only
  split
  · exact .pure (.inr rfl) ⟨hb, rfl⟩
  · refine .bind (Agree.onFirst (Bound.on_agree 0 h.textEnded) ⟨hb, rfl⟩) ?_
    rintro ended _ ⟨b, ahead⟩ ⟨b', _⟩ rfl ⟨hb, rfl⟩
    cases ended with
    | true => exact .pure (.inr rfl) ⟨hb, rfl⟩
    | false =>
      refine .look (.bind (Agree.onFirst (Bound.arg_agree 0) ⟨hb, rfl⟩) ?_)
      intro source source' s t hsource _
      refine .bind (.within (streamMore_agree h ⟨rfl, hsource⟩) fun q q' hq =>
        ⟨⟨hb.1, hb.2.1, hb.2.2.set 0 hq.2⟩, hq.1⟩) fun _ _ _ _ _ hst => .pure (.inl rfl) hst

theorem answer_agree (ask : ListAsk) : Agreed m p (answer · ask) := by
  cases ask with
  | current =>
    refine .bind (fill_agree h) fun _ _ _ => .look ?_
    rintro ⟨b, ahead⟩ ⟨b', _⟩ ⟨hb, rfl⟩
    cases ahead with
    | nil => exact .fail _ ⟨hb, rfl⟩
    | cons byte ahead => exact .pure (.number _) ⟨hb, rfl⟩
  | advance =>
    refine .bind (fill_agree h) fun _ _ _ => .change ?_
    rintro ⟨b, ahead⟩ ⟨b', _⟩ ⟨hb, rfl⟩
    exact ⟨hb, rfl⟩
  | ended =>
    refine .bind (fill_agree h) fun _ _ _ => .look ?_
    rintro ⟨b, ahead⟩ ⟨b', _⟩ ⟨hb, rfl⟩
    exact .pure rfl ⟨hb, rfl⟩
  | rewind | count =>
    refine .look fun s t hst => ?_
    rw [hst.1.2.1.1, hst.1.2.1.2]
    exact .fail _ hst

end ByteList

namespace Splitter

theorem readSeparator_agree : Agreed m p readSeparator := by
  refine .look ?_
  rintro ⟨b, ⟨separator, pending, current, done⟩⟩ ⟨b', _⟩ ⟨hb, rfl⟩
  cases separator with
  | some separator => exact .pure rfl ⟨hb, rfl⟩
  | none =>
    refine .bind (Agree.onFirst (Bound.on_agree 0 (readAll_agree h)) ⟨hb, rfl⟩) ?_
    rintro separator _ ⟨b, splitter⟩ ⟨b', _⟩ rfl ⟨hb, rfl⟩
    exact .change (.pure rfl ⟨hb, rfl⟩)

theorem cutPiece_agree (separator : Bytes) : Agreed m p (cutPiece · separator) := by
  refine .loop ?_ p.fuel rfl
  rintro ⟨⟩ _ -
  refine .look ?_
  rintro ⟨b, splitter⟩ ⟨b', _⟩ ⟨hb, rfl⟩
  dsimp only
  split
  · exact .put (.pure (.inr rfl) ⟨hb, rfl⟩)
  · refine .bind (Agree.onFirst (Bound.on_agree 1 h.textEnded) ⟨hb, rfl⟩) ?_
    rintro ended _ ⟨b, splitter⟩ ⟨b', _⟩ rfl ⟨hb, rfl⟩
    cases ended with
    | true => exact .change (.pure (.inr rfl) ⟨hb, rfl⟩)
    | false =>
      refine .look (.bind (Agree.onFirst (Bound.arg_agree 1) ⟨hb, rfl⟩) ?_)
      intro source source' s t hsource _
      refine .bind (.within (streamMore_agree h ⟨rfl, hsource⟩) ?_)
        fun _ _ _ _ _ hst => .pure (.inl rfl) hst
      rintro ⟨pending, source⟩ ⟨_, source'⟩ ⟨rfl, hq⟩
      exact ⟨⟨hb.1, hb.2.1, hb.2.2.set 1 hq⟩, rfl⟩

theorem fetch_agree : Agreed m p fetch := by
  refine .look ?_
  rintro ⟨b, splitter⟩ ⟨b', _⟩ ⟨hb, rfl⟩
  dsimp only
  split
  · refine .bind (readSeparator_agree h ⟨hb, rfl⟩) ?_
    rintro separator _ ⟨b, splitter⟩ ⟨b', _⟩ rfl ⟨hb, rfl⟩
    split
    · exact .change_end ⟨hb, rfl⟩
    · exact cutPiece_agree h separator ⟨hb, rfl⟩
  · exact .pure rfl ⟨hb, rfl⟩

theorem answer_agree (ask : ListAsk) : Agreed m p (answer · ask) := by
  cases ask with
  | current =>
    refine .bind (fetch_agree h) fun _ _ _ => .look ?_
    rintro ⟨b, splitter⟩ ⟨b', _⟩ ⟨hb, rfl⟩
    dsimp only
    split
    · exact .pure (.text _ false) ⟨hb, rfl⟩
    · exact .fail _ ⟨hb, rfl⟩
  | advance =>
    refine .bind (fetch_agree h) fun _ _ _ => .change ?_
    rintro ⟨b, splitter⟩ ⟨b', _⟩ ⟨hb, rfl⟩
    exact ⟨hb, rfl⟩
  | ended =>
    refine .bind (fetch_agree h) fun _ _ _ => .look ?_
    rintro ⟨b, splitter⟩ ⟨b', _⟩ ⟨hb, rfl⟩
    exact .pure rfl ⟨hb, rfl⟩
  | rewind | count =>
    refine .look fun s t hst => ?_
    rw [hst.1.2.1.1, hst.1.2.1.2]
    exact .fail _ hst

end Splitter

end PullScript
