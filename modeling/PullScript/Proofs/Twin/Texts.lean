import PullScript.Proofs.Twin.Numbers

namespace PullScript

open Act

variable {σ : Type} [Twinned σ] {m : Mode} {ports : Bool} {p : Puller}

abbrev TextAsk.Fits (loud : Bool) (ask : TextAsk) : Prop :=
  loud = true ∨ ask.quiet = true

theorem TextAsk.loud_of_fits {loud : Bool} {ask : TextAsk} (h : ask.Fits loud) (hask : ask.quiet = false) : loud = true := by
  simpa [TextAsk.Fits, hask] using h

namespace Once

variable [Holder σ] [Inhabited σ] {produce : Act σ Bytes}
  {produce' : Nat → Act σ Bytes} (hproduce : Agree m produce produce')
include hproduce

theorem bytes_agree : Agree m (bytes produce) fun n => bytes (produce' n) := by
  refine .look ?_
  rintro ⟨s, once⟩ ⟨t, _⟩ ⟨hst, rfl⟩
  cases hknown : once.known with
  | some known =>
    simp only
    exact .pure rfl ⟨hst, rfl⟩
  | none =>
    simp only
    refine (hproduce.onFirst ⟨hst, rfl⟩).bind ?_
    rintro made _ ⟨s, once⟩ ⟨t, _⟩ rfl ⟨hst, rfl⟩
    exact .change (.pure rfl ⟨hst, rfl⟩)

theorem serve_agree (hloud : m.loud = true) : Agree m (serve produce) fun n => serve (produce' n) := by
  refine .bind (bytes_agree hproduce) ?_
  rintro made _ rfl
  refine .bind (.write made hloud) fun _ _ _ => .change ?_
  rintro ⟨s, once⟩ ⟨t, _⟩ ⟨hst, rfl⟩
  exact ⟨hst, rfl⟩

theorem answer_agree {take : Act σ (Option Value.Numeric)} {take' : Nat → Act σ (Option Value.Numeric)}
    (htake : Agree m take take') (ask : TextAsk) (hask : ask.Fits m.loud) :
    Agree m (answer produce take ask) fun n => answer (produce' n) (take' n) ask := by
  cases ask with
  | stream =>
    refine .look ?_
    rintro ⟨s, once⟩ ⟨t, _⟩ ⟨hst, rfl⟩
    dsimp only
    split
    · exact .pure rfl ⟨hst, rfl⟩
    · exact serve_agree hproduce (TextAsk.loud_of_fits hask rfl) ⟨hst, rfl⟩
  | ended =>
    refine .look ?_
    rintro ⟨s, once⟩ ⟨t, _⟩ ⟨hst, rfl⟩
    exact .pure rfl ⟨hst, rfl⟩
  | drain => exact serve_agree hproduce (TextAsk.loud_of_fits hask rfl)
  | takeNumber => exact .onFirst htake

end Once

theorem answerLiteral_agree (bytes : Bytes) (ask : TextAsk) (hask : ask.Fits m.loud) :
    Agree m (answerLiteral bytes ask) fun _ => answerLiteral bytes ask := by
  cases ask with
  | stream =>
    refine .look ?_
    rintro read _ rfl
    cases read with
    | true => exact .pure rfl rfl
    | false => exact .bind (Agree.write bytes (TextAsk.loud_of_fits hask rfl) rfl) fun _ _ _ _ _ _ => .put_end rfl
  | ended => exact fun s t hst w w' hw => .inr ⟨_, .of_eq fun _ => rfl, .ok hst hst (.refl hw)⟩
  | drain => exact .bind (.write bytes (TextAsk.loud_of_fits hask rfl)) fun _ _ _ _ _ _ => .put_end rfl
  | takeNumber => exact .pure .none

theorem answerChunks_agree (fuel : Nat) (parts : List Bytes) (ask : TextAsk) (hask : ask.Fits m.loud) :
    Agree m (answerChunks fuel parts ask) fun n => answerChunks n parts ask := by
  have hended : Agree m (answerChunks.ended parts) fun _ => answerChunks.ended parts := by
    refine .look ?_
    rintro position _ rfl
    exact .pure rfl rfl
  have hstream (hloud : m.loud = true) :
      Agree m (answerChunks.stream parts) fun _ => answerChunks.stream parts := by
    refine .look ?_
    rintro position _ rfl
    cases parts[position]? with
    | none => exact .pure rfl rfl
    | some part =>
      refine .bind (Agree.write part hloud rfl) ?_
      rintro _ _ position _ - rfl
      exact .change_end rfl
  cases ask with
  | stream => exact hstream (TextAsk.loud_of_fits hask rfl)
  | ended => exact hended
  | drain => exact drainBySteps_agree hended (hstream (TextAsk.loud_of_fits hask rfl)) fuel
  | takeNumber => exact .pure .none

theorem answerInput_agree (hports : m.ports = true) (fuel tap : Nat) (ask : TextAsk) (hask : ask.Fits m.loud) :
    Agree m (answerInput fuel tap ask) fun n => answerInput n tap ask := by
  have hended : Agree m (answerInput.ended tap) fun _ => answerInput.ended tap := by
    refine .look ?_
    rintro offset _ rfl
    refine .bind (Agree.fillTap tap offset hports rfl) ?_
    rintro t _ offset' _ rfl rfl
    exact .pure rfl rfl
  have hstream (hloud : m.loud = true) :
      Agree m (answerInput.stream tap) fun _ => answerInput.stream tap := by
    refine .look ?_
    rintro offset _ rfl
    refine .bind (Agree.streamTap tap offset hports hloud rfl) ?_
    rintro offset' _ _ _ rfl rfl
    exact .put_end rfl
  cases ask with
  | stream => exact hstream (TextAsk.loud_of_fits hask rfl)
  | ended => exact hended
  | drain => exact drainBySteps_agree hended (hstream (TextAsk.loud_of_fits hask rfl)) fuel
  | takeNumber => exact .pure .none

theorem asNumeric?_twin {source source' : Option Value} (hsource : Value.OptionTwin ports source source') :
    Twinned.NumericTwin ports (source.bind Value.asNumeric?) (source'.bind Value.asNumeric?) := by
  cases hsource with
  | none => exact .none
  | @some a b hab =>
    simp only [Option.bind_some, Value.asNumeric?]
    by_cases hkind : a.kind = .num
    · rw [dif_pos hkind, dif_pos (hab.kind_eq ▸ hkind)]
      exact .some hab
    · rw [dif_neg hkind, dif_neg (hab.kind_eq ▸ hkind)]
      exact .none

section Asking

variable (h : Asks m.ports p)
include h

theorem numberBytes_agree : Agreed m p numberBytes := by
  refine .look fun source source' hsource => ?_
  cases hsource with
  | none => exact .fail _ .none
  | some hsource =>
    refine .bind (.within (h.number hsource) fun _ _ hq => .some hq) ?_
    rintro n _ _ _ rfl hsource'
    exact .pure rfl hsource'

theorem answerNumberText_agree (ask : TextAsk) (hask : ask.Fits m.loud) :
    Agreed m p (answerNumberText · ask) := by
  refine Once.answer_agree (numberBytes_agree h) (.look fun source source' hsource => ?_) ask hask
  exact .put (.pure (asNumeric?_twin hsource) .none)

namespace Joiner

theorem itemGoesOn_agree : Agreed m p itemGoesOn := by
  refine .look ?_
  rintro ⟨⟨separator, item, started⟩, source⟩ ⟨⟨_, item', _⟩, source'⟩ ⟨⟨rfl, hitem, rfl⟩, hsource⟩
  cases hitem with
  | none => exact .pure rfl ⟨⟨rfl, .none, rfl⟩, hsource⟩
  | some hitem =>
    refine .bind (.within (h.textEnded hitem) fun _ _ hq => ⟨⟨rfl, .some hq, rfl⟩, hsource⟩) ?_
    rintro ended _ s t rfl hst
    exact .pure rfl hst

theorem streamItem_agree (hloud : m.loud = true) : Agreed m p streamItem := by
  refine .look ?_
  rintro ⟨⟨separator, item, started⟩, source⟩ ⟨⟨_, item', _⟩, source'⟩ ⟨⟨rfl, hitem, rfl⟩, hsource⟩
  cases hitem with
  | none => exact .pure rfl ⟨⟨rfl, .none, rfl⟩, hsource⟩
  | some hitem => exact .within (h.stream hloud hitem) fun _ _ hq => ⟨⟨rfl, .some hq, rfl⟩, hsource⟩

theorem begin_agree (hloud : m.loud = true) {item item' : Value} (hitem : Value.Twin m.ports item item') : Agree m (do
        change fun (joiner, source) => ({ joiner with started := true }, source)
        let text ← coerce p item (.str false)
        let ((), text) ← aside text p.stream
        change fun (joiner, source) => ({ joiner with item := some text }, source) :
          Act (Joiner Value × Value) Unit)
      fun n => (do
        change fun (joiner, source) => ({ joiner with started := true }, source)
        let text ← coerce (puller n) item' (.str false)
        let ((), text) ← aside text (puller n).stream
        change fun (joiner, source) => ({ joiner with item := some text }, source)) := by
  refine .bind (.change fun s t hst => ⟨⟨hst.1.1, hst.1.2.1, rfl⟩, hst.2⟩) fun _ _ _ => ?_
  refine .bind (coerce_agree h hitem (.str false)) fun text text' htext => ?_
  refine .bind ((h.stream hloud).aside htext) ?_
  rintro ⟨_, text⟩ ⟨_, text'⟩ ⟨-, htext⟩
  exact .change fun s t hst => ⟨⟨hst.1.1, .some htext, hst.1.2.2⟩, hst.2⟩

theorem streamNext_agree (hloud : m.loud = true) : Agreed m p streamNext := by
  refine .bind (.change fun s t hst => ⟨⟨hst.1.1, .none, hst.1.2.2⟩, hst.2⟩) fun _ _ _ => ?_
  refine .bind (.onSecond h.next) fun item item' hitem => ?_
  cases hitem with
  | none => exact .pure rfl
  | some hitem =>
    have hbegin := begin_agree h hloud hitem
    refine .look ?_
    rintro ⟨⟨separator, item, started⟩, source⟩ ⟨⟨_, item', _⟩, source'⟩ hst
    obtain ⟨⟨rfl, -, rfl⟩, -⟩ := id hst
    cases started with
    | true => exact .bind (Agree.write separator hloud hst) fun _ _ _ _ _ hst' => hbegin hst'
    | false => exact hbegin hst

theorem stream_agree (hloud : m.loud = true) : Agreed m p stream := by
  refine .bind (itemGoesOn_agree h) ?_
  rintro more _ rfl
  cases more with
  | true => exact streamItem_agree h hloud
  | false => exact streamNext_agree h hloud

theorem ended_agree : Agreed m p ended := by
  refine .bind (itemGoesOn_agree h) ?_
  rintro more _ rfl
  cases more with
  | true => exact .pure rfl
  | false => exact .onSecond h.listEnded

theorem answer_agree (ask : TextAsk) (hask : ask.Fits m.loud) : Agreed m p (answer · ask) := by
  cases ask with
  | stream => exact stream_agree h (TextAsk.loud_of_fits hask rfl)
  | ended => exact ended_agree h
  | drain => exact drainBySteps_agree (ended_agree h) (stream_agree h (TextAsk.loud_of_fits hask rfl)) p.fuel
  | takeNumber => exact .pure .none

end Joiner

variable [Bound.Tied]

theorem answerEncoding_agree (e : Encoding) (ask : TextAsk) (hask : ask.Fits m.loud) :
    Agreed m p (answerEncoding · e ask) := by
  have hended : Agreed m p answerEncoding.ended :=
    Bound.on_agree 0 h.listEnded
  have hstream (hloud : m.loud = true) : Agree m (answerEncoding.stream p e)
      fun n => answerEncoding.stream (puller n) e := by
    refine .bind (Bound.on_agree 0 h.next) fun item item' hitem => ?_
    cases hitem with
    | none => exact .pure rfl
    | some hitem =>
      refine .bind (h.number.aside hitem) ?_
      rintro ⟨n, _⟩ ⟨_, _⟩ ⟨rfl, -⟩
      exact .write _ hloud
  cases ask with
  | stream => exact hstream (TextAsk.loud_of_fits hask rfl)
  | ended => exact hended
  | drain => exact drainBySteps_agree hended (hstream (TextAsk.loud_of_fits hask rfl)) p.fuel
  | takeNumber => exact .pure .none

namespace Concat

theorem skipEnded_agree (rest : List Nat) : Agreed m p (skipEnded · rest) := by
  induction rest with
  | nil => exact .pure rfl
  | cons k rest ih =>
    refine .bind (.onFirst (Bound.on_agree k h.textEnded)) ?_
    rintro ended _ rfl
    cases ended with
    | true =>
      refine .bind (.change ?_) fun _ _ _ => ih
      rintro ⟨b, state⟩ ⟨b', _⟩ ⟨hb, rfl⟩
      exact ⟨hb, rfl⟩
    | false => exact .pure rfl

theorem stream_agree (hloud : m.loud = true) : Agreed m p stream := by
  refine .look ?_
  rintro ⟨b, state⟩ ⟨b', _⟩ ⟨hb, rfl⟩
  refine .bind (skipEnded_agree h state.rest ⟨hb, rfl⟩) ?_
  rintro _ _ ⟨b, ⟨order, rest⟩⟩ ⟨b', _⟩ - ⟨hb, rfl⟩
  refine .look ?_
  cases rest with
  | nil => exact .pure rfl ⟨hb, rfl⟩
  | cons k rest => exact Agree.onFirst (Bound.on_agree k (h.stream hloud)) ⟨hb, rfl⟩

theorem ended_agree : Agreed m p ended := by
  refine .look ?_
  rintro ⟨b, state⟩ ⟨b', _⟩ ⟨hb, rfl⟩
  refine .bind (skipEnded_agree h state.rest ⟨hb, rfl⟩) ?_
  rintro _ _ ⟨b, state⟩ ⟨b', _⟩ - ⟨hb, rfl⟩
  exact .look (.pure rfl ⟨hb, rfl⟩)

theorem answer_agree (ask : TextAsk) (hask : ask.Fits m.loud) : Agreed m p (answer · ask) := by
  cases ask with
  | stream => exact stream_agree h (TextAsk.loud_of_fits hask rfl)
  | ended => exact ended_agree h
  | drain => exact drainBySteps_agree (ended_agree h) (stream_agree h (TextAsk.loud_of_fits hask rfl)) p.fuel
  | takeNumber => exact .pure .none

end Concat

namespace Joiner

theorem ofArgs_agree {α : Type} [Twinned α] {act : Act (Joiner Value × Value) α}
    {act' : Nat → Act (Joiner Value × Value) α} (hact : Agree m act act') :
    Agree m (ofArgs p act) fun n => ofArgs (puller n) (act' n) := by
  have hrest : Agree m (do
        let source ← onFirst (Bound.arg 1)
        let s ← look
        within (s.2.getD { separator := [] }, source)
          (fun q => ({ s.1 with args := s.1.args.set 1 q.2 }, some q.1)) act)
      fun n => (do
        let source ← onFirst (Bound.arg 1)
        let s ← look
        within (s.2.getD { separator := [] }, source)
          (fun q => ({ s.1 with args := s.1.args.set 1 q.2 }, some q.1)) (act' n)) := by
    refine .bind (.onFirst (Bound.arg_agree 1)) fun source source' hsource => .look ?_
    rintro ⟨b, joiner⟩ ⟨b', joiner'⟩ ⟨⟨hname, hty, hargs⟩, hjoiner⟩
    refine .within (hact ⟨?_, hsource⟩) fun q q' hq => ⟨⟨hname, hty, hargs.set 1 hq.2⟩, .some hq.1⟩
    cases hjoiner with
    | none => exact ⟨rfl, .none, rfl⟩
    | some hjoiner => exact hjoiner
  refine .look ?_
  rintro ⟨b, joiner⟩ ⟨b', joiner'⟩ ⟨hb, hjoiner⟩
  cases hjoiner with
  | some hjoiner => exact hrest ⟨hb, .some hjoiner⟩
  | none =>
    refine .bind (Agree.onFirst (Bound.text_agree h 0) ⟨hb, .none⟩) ?_
    rintro separator _ s t rfl hst
    exact .change (hrest ⟨hst.1, .some ⟨rfl, .none, rfl⟩⟩)

theorem answerJoin_agree (ask : TextAsk) (hask : ask.Fits m.loud) : Agreed m p (answerJoin · ask) := by
  cases ask with
  | stream => exact ofArgs_agree h (stream_agree h (TextAsk.loud_of_fits hask rfl))
  | ended => exact ofArgs_agree h (ended_agree h)
  | drain =>
    have hstream := stream_agree h (TextAsk.loud_of_fits hask rfl)
    exact drainBySteps_agree (ofArgs_agree h (ended_agree h)) (ofArgs_agree h hstream) p.fuel
  | takeNumber => exact .pure .none

end Joiner

end Asking

end PullScript
