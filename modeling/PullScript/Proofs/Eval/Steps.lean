import PullScript.Eval.Pull
import PullScript.Proofs.Eval.Act

namespace PullScript

def Error.Placeless (error : Error) : Prop :=
  error.span? = none

namespace Act

def Result.orNone {σ α : Type} : Result σ (Option α) → Result σ (Option α)
  | .error (.failed _) s => .ok none s
  | result => result

/-- Work put together from few kinds of steps, that fails only with errors in `E`. Where `loud` is
false nothing is streamed. -/
inductive Steps (E : Error → Prop) : Bool → {σ α : Type} → Act σ α → Prop
  | pure {loud : Bool} {σ α : Type} (a : α) : Steps E loud (Pure.pure a : Act σ α)
  | fail {loud : Bool} {σ α : Type} {error : Error} : E error → Steps E loud (fail error : Act σ α)
  | outOfFuel {loud : Bool} {σ α : Type} : Steps E loud (outOfFuel : Act σ α)
  | look {loud : Bool} {σ : Type} : Steps E loud (look : Act σ σ)
  | change {loud : Bool} {σ : Type} (f : σ → σ) : Steps E loud (change f)
  | readMeter {loud : Bool} {σ : Type} (meter : Nat) : Steps E loud (readMeter meter : Act σ Float)
  | fillTap {loud : Bool} {σ : Type} (tap offset : Nat) : Steps E loud (fillTap tap offset : Act σ Tap)
  | write {σ : Type} (bytes : Bytes) : Steps E true (write bytes : Act σ Unit)
  | streamTap {σ : Type} (tap offset : Nat) : Steps E true (streamTap tap offset : Act σ Nat)
  | bind {loud : Bool} {σ α β : Type} {act : Act σ α} {next : α → Act σ β} :
    Steps E loud act → (∀ a, Steps E loud (next a)) → Steps E loud (act >>= next)
  | zoom {loud : Bool} {σ τ α : Type} {act : Act τ α} (part : τ) (rebuild : τ → σ) :
    Steps E loud act → Steps E loud (zoom part rebuild act)
  | holding {loud : Bool} {σ α : Type} {act : Act σ α} (values : List Value) :
    Steps E loud act → Steps E loud (holding values act)
  | aside {loud : Bool} {σ τ α : Type} [Holder σ] {act : Act τ α} (other : τ) :
    Steps E loud act → Steps E loud (aside other act : Act σ (α × τ))
  | gathered {loud : Bool} {σ : Type} {act : Act σ Unit} : Steps E true act → Steps E loud (gathered act)
  | gather {loud : Bool} {σ α : Type} {act : Act σ α} : Steps E true act → Steps E loud (gather act)
  | intoSink {loud : Bool} {σ α : Type} {act : Act σ α} (sink : Nat) :
    Steps E true act → Steps E loud (intoSink sink act)
  | orNone {loud : Bool} {σ α : Type} {act : Act σ (Option α)} :
    Steps E false act → Steps E loud fun s => Result.orNone (act s)

namespace Steps

variable {E E' : Error → Prop} {loud : Bool} {σ τ α β : Type}

/-- Work may be said to fail with more errors, and quiet work to be loud. -/
theorem weaken {act : Act σ α} (h : Steps E loud act) (hE : ∀ error, E error → E' error) {loud' : Bool}
    (hloud : loud = true → loud' = true) : Steps E' loud' act := by
  induction h generalizing loud' with
  | pure a => exact .pure a
  | fail herror => exact .fail (hE _ herror)
  | outOfFuel => exact .outOfFuel
  | look => exact .look
  | change f => exact .change f
  | readMeter meter => exact .readMeter meter
  | fillTap tap offset => exact .fillTap tap offset
  | write bytes => exact hloud rfl ▸ .write bytes
  | streamTap tap offset => exact hloud rfl ▸ .streamTap tap offset
  | bind _ _ ih ihnext => exact .bind (ih hloud) fun a => ihnext a hloud
  | zoom part rebuild _ ih => exact .zoom part rebuild (ih hloud)
  | holding values _ ih => exact .holding values (ih hloud)
  | aside other _ ih => exact .aside other (ih hloud)
  | gathered _ ih => exact .gathered (ih id)
  | gather _ ih => exact .gather (ih id)
  | intoSink sink _ ih => exact .intoSink sink (ih id)
  | orNone _ ih => exact .orNone (ih id)

theorem imp {act : Act σ α} (h : Steps E loud act) (hE : ∀ error, E error → E' error) : Steps E' loud act :=
  h.weaken hE id

theorem quiet {act : Act σ α} (h : Steps E false act) : Steps E loud act :=
  h.weaken (fun _ => id) nofun

theorem put (s : σ) : Steps E loud (Act.put s) :=
  .change fun _ => s

theorem within [Holder σ] [Inhabited τ] {act : Act τ α} (h : Steps E loud act) (part : τ) (rebuild : τ → σ) :
    Steps E loud (Act.within part rebuild act) :=
  .zoom part rebuild (.holding _ h)

theorem onFirst [Holder σ] [Holder τ] [Inhabited σ] {act : Act σ α} (h : Steps E loud act) :
    Steps E loud (Act.onFirst act : Act (σ × τ) α) :=
  .bind .look fun s => h.within s.1 _

theorem onSecond [Holder σ] [Holder τ] [Inhabited τ] {act : Act τ α} (h : Steps E loud act) :
    Steps E loud (Act.onSecond act : Act (σ × τ) α) :=
  .bind .look fun s => h.within s.2 _

theorem ofExcept {result : Except Error α} (h : ∀ error, result = .error error → E error) :
    Steps E loud (Act.ofExcept result : Act σ α) := by
  cases result with
  | ok a => exact .pure a
  | error error => exact .fail (h error rfl)

theorem ofOption (result : Option α) : Steps E loud (Act.ofOption result : Act σ α) := by
  cases result with
  | some a => exact .pure a
  | none => exact .outOfFuel

theorem loop {body : β → Act σ (β ⊕ α)} (h : ∀ b, Steps E loud (body b)) (fuel : Nat) (b : β) :
    Steps E loud (Act.loop body fuel b) := by
  induction fuel generalizing b with
  | zero => exact .outOfFuel
  | succ fuel ih =>
    refine .bind (h b) fun out => ?_
    cases out with
    | inl b => exact ih b
    | inr a => exact .pure a

theorem ite {c : Prop} [Decidable c] {act act' : Act σ α} (h : Steps E loud act) (h' : Steps E loud act') :
    Steps E loud (if c then act else act') := by
  split
  · exact h
  · exact h'

end Steps

def Result.FailsIn {σ α : Type} (E : Error → Prop) : Result σ α → Prop
  | .error (.failed error) _ => E error
  | _ => True

section

variable {E : Error → Prop} {σ τ α β : Type}

theorem Result.FailsIn.of_error {result : Result σ α} (h : result.FailsIn E) {error : Error} {s : σ × World}
    (heq : result = .error (.failed error) s) : E error := by
  subst heq
  exact h

theorem Result.FailsIn.through {result : Result σ α} {after : Result σ α → Result τ β} (h : result.FailsIn E)
    (hok : ∀ a s, (after (.ok a s)).FailsIn E)
    (herror : ∀ stop s, Result.FailsIn E (.error stop s : Result σ α) → (after (.error stop s)).FailsIn E) :
    (after result).FailsIn E := by
  cases result with
  | ok a s => exact hok a s
  | error stop s => exact herror stop s h

theorem failsIn_bind {act : Act σ α} {next : α → Act σ β} (h : ∀ s, Result.FailsIn E (act s))
    (hnext : ∀ a s, Result.FailsIn E (next a s)) (s : σ × World) : Result.FailsIn E ((act >>= next) s) := by
  rw [bind_run]
  have hact := h s
  cases hrun : act s with
  | ok a s => exact hnext a s
  | error stop s =>
    rw [hrun] at hact
    cases stop <;> exact hact

section

variable (hE : ∀ error, error.Placeless → E error)
include hE

theorem failsIn_readMeter (meter : Nat) (s : σ × World) :
    Result.FailsIn E ((readMeter meter : Act σ Float) s) := by
  simp only [readMeter, bind_run, world_run, changeWorld_run]
  cases (s.2.meters.getD meter { n := 0 }).failure with
  | none => trivial
  | some message => exact hE _ rfl

theorem failsIn_fillTap (tap offset : Nat) (s : σ × World) :
    Result.FailsIn E ((fillTap tap offset : Act σ Tap) s) := by
  simp only [fillTap, bind_run, world_run, changeWorld_run]
  cases ((s.2.taps.getD tap { reads := [] }).fillFor offset).2 with
  | none => trivial
  | some message => exact hE _ rfl

theorem failsIn_write (bytes : Bytes) (s : σ × World) :
    Result.FailsIn E ((write bytes : Act σ Unit) s) := by
  simp only [write]
  split
  · trivial
  · exact hE _ rfl

end

theorem Steps.failsIn {loud : Bool} {act : Act σ α} (h : Steps E loud act)
    (hE : ∀ error, error.Placeless → E error) (s : σ × World) : Result.FailsIn E (act s) := by
  induction h with
  | pure a => trivial
  | fail herror => exact herror
  | outOfFuel => trivial
  | look => trivial
  | change f => trivial
  | readMeter meter => exact failsIn_readMeter hE meter s
  | fillTap tap offset => exact failsIn_fillTap hE tap offset s
  | write bytes => exact failsIn_write hE bytes s
  | streamTap tap offset =>
    refine failsIn_bind (failsIn_fillTap hE tap offset) (fun t => failsIn_bind (failsIn_write hE _) ?_) s
    exact fun _ _ => trivial
  | bind _ _ ih ihnext => exact failsIn_bind ih ihnext s
  | zoom part rebuild _ ih =>
    rw [zoom_run]
    exact (ih (part, s.2)).through (fun _ _ => trivial) fun stop _ h => by cases stop <;> exact h
  | holding values _ ih =>
    rw [holding_run]
    exact (ih _).through (fun _ _ => trivial) fun stop _ h => by cases stop <;> exact h
  | aside other _ ih =>
    rw [aside_run, holding_run]
    refine Result.FailsIn.through ?_ (fun _ _ => trivial) fun stop _ h => by cases stop <;> exact h
    exact (ih _).through (fun _ _ => trivial) fun stop _ h => by cases stop <;> exact h
  | gathered _ ih =>
    rw [gathered_run]
    exact (ih _).through (fun _ _ => trivial) fun stop _ h => by cases stop <;> exact h
  | gather _ ih =>
    rw [gather_run]
    exact (ih _).through (fun _ _ => trivial) fun stop _ h => by cases stop <;> exact h
  | intoSink sink _ ih =>
    rw [intoSink_run]
    exact (ih _).through (fun _ _ => trivial) fun stop _ h => by cases stop <;> exact h
  | orNone _ ih => exact (ih s).through (fun _ _ => trivial) fun stop _ h => by cases stop <;> trivial

end

end Act

open Act

def TextAsk.loud : TextAsk → Bool
  | .stream | .drain => true
  | .ended | .takeNumber => false

def Ask.loud : Ask → Bool
  | .text ask => ask.loud
  | .number | .list _ | .apply _ => false

structure Puller.Steady (p : Puller) : Prop where
  pull : ∀ ask, Steps Error.Placeless ask.loud (p.pull ask)

abbrev Usual {σ α : Type} (loud : Bool) (act : Act σ α) : Prop :=
  Steps Error.Placeless loud act

variable {σ τ α : Type} {loud : Bool} {p : Puller}

namespace Puller.Steady

variable (h : p.Steady)
include h

theorem number : Usual loud p.number := (h.pull .number).quiet

theorem textEnded : Usual loud p.textEnded := (h.pull (.text .ended)).quiet

theorem takeNumber : Usual loud p.takeNumber := (h.pull (.text .takeNumber)).quiet

theorem stream : Usual true p.stream := h.pull (.text .stream)

theorem drain : Usual true p.drain := h.pull (.text .drain)

theorem list (ask : ListAsk) : Usual loud (p.pull (.list ask)) := (h.pull (.list ask)).quiet

theorem current : Usual loud p.current := h.list .current

theorem advance : Usual loud p.advance := h.list .advance

theorem listEnded : Usual loud p.listEnded := h.list .ended

theorem rewind : Usual loud p.rewind := h.list .rewind

theorem count : Usual loud p.count := h.list .count

theorem apply (x : Value) : Usual loud (p.apply x) := (h.pull (.apply x)).quiet

theorem next : Usual loud p.next :=
  .bind h.listEnded fun _ => .ite (.pure _) (.bind h.current fun _ => .bind (.holding _ h.advance) fun _ => .pure _)

end Puller.Steady

theorem requireKind_steps (kind : Kind) : Usual loud (requireKind kind) :=
  .bind .look fun _ => .ite (.pure _) (.fail rfl)

theorem countBySteps_steps (fuel : Nat) {rewind : Act σ Unit} {ended : Act σ Bool} {advance : Act σ Unit}
    (hrewind : Usual loud rewind) (hended : Usual loud ended) (hadvance : Usual loud advance) :
    Usual loud (countBySteps fuel rewind ended advance) := by
  refine .bind hrewind fun _ => .bind (.loop (fun _ => ?_) _ _) fun _ => .bind hrewind fun _ => .pure _
  exact .bind hended fun _ => .ite (.pure _) (.bind hadvance fun _ => .pure _)

theorem drainBySteps_steps (fuel : Nat) {ended : Act σ Bool} {stream : Act σ Unit}
    (hended : Usual loud ended) (hstream : Usual loud stream) : Usual loud (drainBySteps fuel ended stream) :=
  .loop (fun _ => .bind hended fun _ => .ite (.pure _) (.bind hstream fun _ => .pure _)) _ _

section

variable (h : p.Steady)
include h

theorem readAll_steps : Usual loud (readAll p) := .gathered h.drain

theorem readWhile_steps (more : Bytes → Bool) : Usual loud (readWhile p more) := by
  refine .bind (requireKind_steps _) fun _ => .loop (fun _ => .ite (.pure _) ?_) _ _
  exact .bind h.textEnded fun _ => .ite (.pure _) (.bind (.gathered h.stream) fun _ => .pure _)

theorem skipItems_steps (n : Nat) : Usual loud (skipItems p n) := by
  refine .bind (requireKind_steps _) fun _ => .loop (fun _ => .ite (.pure _) ?_) _ _
  exact .bind h.listEnded fun _ => .ite (.pure _) (.bind h.advance fun _ => .pure _)

theorem drainItems_steps : Usual loud (drainItems p) := by
  refine .bind (requireKind_steps _) fun _ => .loop (fun _ => .bind (.holding _ h.next) fun item => ?_) _ _
  cases item <;> exact .pure _

theorem coerce_steps [Holder σ] (value : Value) (target : Ty) : Usual loud (coerce p value target : Act σ Value) := by
  unfold coerce
  split
  case h_6 =>
    refine .bind (.aside _ h.takeNumber) fun found => ?_
    obtain ⟨_ | number, _⟩ := found
    · exact .fail rfl
    · exact .pure _
  case h_10 => exact .fail rfl
  all_goals exact .pure _

omit h in
theorem Bound.arg_steps (k : Nat) : Usual loud (Bound.arg k) := by
  refine .bind .look fun b => ?_
  split
  · exact .pure _
  · exact .fail rfl

omit h in
theorem Bound.on_steps (k : Nat) {act : Act Value α} (hact : Usual loud act) : Usual loud (Bound.on k act) :=
  .bind (Bound.arg_steps k) fun _ => .bind .look fun _ => hact.within _ _

theorem Bound.applyArg_steps (k : Nat) (x : Value) : Usual loud (Bound.applyArg p k x) :=
  Bound.on_steps k (.bind (requireKind_steps _) fun _ => h.apply x)

theorem Bound.give_steps (k : Nat) (how : Handing) : Usual loud (Bound.give p k how) := by
  cases how with
  | itself => exact Bound.arg_steps k
  | copy => exact .bind (Bound.arg_steps k) fun _ => .pure _
  | number => exact .bind (Bound.on_steps k h.number) fun _ => .pure _
  | text => exact .bind (Bound.on_steps k (readAll_steps h)) fun _ => .pure _
  | list => exact Bound.on_steps k (.bind (requireKind_steps _) fun _ => .bind .look fun _ => .pure _)
  | function => exact Bound.on_steps k (.bind (requireKind_steps _) fun _ => .bind .look fun _ => .pure _)
  | description => exact .bind .look fun _ => .pure _

theorem countArg_steps (k : Nat) : Usual loud (countArg p k) :=
  .bind (Bound.on_steps k h.number) fun _ => .pure _

theorem searchFor_steps (needle : Bytes) : Usual loud (searchFor p needle) := by
  refine .bind (requireKind_steps _) fun _ => .loop (fun _ => .bind h.textEnded fun _ => .ite (.pure _) ?_) _ _
  exact .bind (.gathered h.stream) fun _ => .ite (.pure _) (.pure _)

theorem Calculation.run_steps (c : Calculation) : Usual loud (c.run p) := by
  have hnumber (k : Nat) : Usual loud (Bound.on k p.number) := Bound.on_steps k h.number
  have hall (k : Nat) : Usual loud (Bound.on k (readAll p)) := Bound.on_steps k (readAll_steps h)
  have hwhile (k : Nat) (more : Bytes → Bool) : Usual loud (Bound.on k (readWhile p more)) :=
    Bound.on_steps k (readWhile_steps h more)
  cases c with
  | abs => exact .bind (hnumber 0) fun _ => .pure _
  | add | sub | mul | div => exact .bind (hnumber 0) fun _ => .bind (hnumber 1) fun _ => .pure _
  | leadingNumber => exact .bind (hwhile 0 _) fun _ => .pure _
  | fromBase base => exact .bind (hall 0) fun _ => .pure _
  | codePoint =>
    refine .bind (hwhile 0 _) fun bytes => ?_
    split <;> exact .pure _
  | contains =>
    refine .bind (hall 0) fun needle => .ite (.pure _) ?_
    exact .bind (Bound.on_steps 1 (searchFor_steps h needle)) fun _ => .pure _
  | startsWith => exact .bind (hall 0) fun _ => .bind (hwhile 1 _) fun _ => .pure _
  | endsWith => exact .bind (hall 0) fun _ => .bind (hall 1) fun _ => .pure _

theorem Rendering.run_steps (r : Rendering) : Usual loud (r.run p) := by
  have hnumber : Usual loud (Bound.on 0 p.number) := Bound.on_steps 0 h.number
  cases r with
  | decimal => exact .bind hnumber fun _ => .pure _
  | inBase base => exact .bind hnumber fun _ => .bind (.ofOption _) fun _ => .pure _
  | character =>
    refine .bind hnumber fun n => ?_
    split
    · exact .ite (.pure _) (.fail rfl)
    · exact .fail rfl

omit h in
theorem Once.bytes_steps [Holder σ] [Inhabited σ] {produce : Act σ Bytes}
    (hproduce : Usual loud produce) : Usual loud (Once.bytes produce) := by
  refine .bind .look fun s => ?_
  split
  · exact .pure _
  · exact .bind hproduce.onFirst fun _ => .bind (.change _) fun _ => .pure _

omit h in
theorem Once.answer_steps [Holder σ] [Inhabited σ] {produce : Act σ Bytes}
    {takeNumber : Act σ (Option Value.Numeric)} (hproduce : Usual true produce)
    (htake : Usual false takeNumber) (ask : TextAsk) : Usual ask.loud (Once.answer produce takeNumber ask) := by
  have hserve : Usual true (Once.serve produce) :=
    .bind (Once.bytes_steps hproduce) fun _ => .bind (.write _) fun _ => .change _
  cases ask with
  | stream => exact .bind .look fun _ => .ite (.pure _) hserve
  | ended => exact .bind .look fun _ => .pure _
  | drain => exact hserve
  | takeNumber => exact htake.onFirst

omit h in
theorem answerLiteral_steps (bytes : Bytes) (ask : TextAsk) : Usual ask.loud (answerLiteral bytes ask) := by
  cases ask with
  | stream => exact .bind .look fun _ => .ite (.pure _) (.bind (.write _) fun _ => .put _)
  | ended => exact .look
  | drain => exact .bind (.write _) fun _ => .put _
  | takeNumber => exact .pure _

omit h in
theorem answerChunks_steps (fuel : Nat) (parts : List Bytes) (ask : TextAsk) :
    Usual ask.loud (answerChunks fuel parts ask) := by
  have hended {loud : Bool} : Usual loud (answerChunks.ended parts) :=
    .bind .look fun _ => .pure _
  have hstream : Usual true (answerChunks.stream parts) := by
    refine .bind .look fun k => ?_
    split
    · exact .bind (.write _) fun _ => .change _
    · exact .pure _
  cases ask with
  | stream => exact hstream
  | ended => exact hended
  | drain => exact drainBySteps_steps fuel hended hstream
  | takeNumber => exact .pure _

omit h in
theorem answerInput_steps (fuel tap : Nat) (ask : TextAsk) : Usual ask.loud (answerInput fuel tap ask) := by
  have hended {loud : Bool} : Usual loud (answerInput.ended tap) :=
    .bind .look fun _ => .bind (.fillTap _ _) fun _ => .pure _
  have hstream : Usual true (answerInput.stream tap) :=
    .bind .look fun _ => .bind (.streamTap _ _) fun _ => .put _
  cases ask with
  | stream => exact hstream
  | ended => exact hended
  | drain => exact drainBySteps_steps fuel hended hstream
  | takeNumber => exact .pure _

theorem numberBytes_steps : Usual loud (numberBytes p) := by
  refine .bind .look fun source => ?_
  split
  · exact .bind (h.number.within _ _) fun _ => .pure _
  · exact .fail rfl

theorem answerNumberText_steps (ask : TextAsk) : Usual ask.loud (answerNumberText p ask) :=
  Once.answer_steps (numberBytes_steps h) (.bind .look fun _ => .bind (.put _) fun _ => .pure _) ask

theorem Joiner.itemGoesOn_steps : Usual loud (Joiner.itemGoesOn p) := by
  refine .bind .look fun s => ?_
  split
  · exact .pure _
  · exact .bind (h.textEnded.within _ _) fun _ => .pure _

theorem Joiner.ended_steps : Usual loud (Joiner.ended p) :=
  .bind (Joiner.itemGoesOn_steps h) fun _ => .ite (.pure _) h.listEnded.onSecond

theorem Joiner.stream_steps : Usual true (Joiner.stream p) := by
  refine .bind (Joiner.itemGoesOn_steps h) fun _ => .ite ?_ ?_
  · refine .bind .look fun s => ?_
    split
    · exact .pure _
    · exact h.stream.within _ _
  · refine .bind (.change _) fun _ => .bind h.next.onSecond fun item => ?_
    cases item with
    | none => exact .pure _
    | some item =>
      refine .bind .look fun s => .ite (.bind (.write _) fun _ => ?_) ?_
      all_goals
        refine .bind (.change _) fun _ => .bind (coerce_steps h item _) fun _ => ?_
        exact .bind (.aside _ h.stream) fun _ => .change _

theorem Joiner.answer_steps (ask : TextAsk) : Usual ask.loud (Joiner.answer p ask) := by
  cases ask with
  | stream => exact Joiner.stream_steps h
  | ended => exact Joiner.ended_steps h
  | drain => exact drainBySteps_steps _ (Joiner.ended_steps h) (Joiner.stream_steps h)
  | takeNumber => exact .pure _

theorem answerEncoding_steps (e : Encoding) (ask : TextAsk) : Usual ask.loud (answerEncoding p e ask) := by
  have hended {loud : Bool} : Usual loud (answerEncoding.ended p) := Bound.on_steps 0 h.listEnded
  have hstream : Usual true (answerEncoding.stream p e) := by
    refine .bind (Bound.on_steps 0 h.next) fun item => ?_
    cases item with
    | none => exact .pure _
    | some item => exact .bind (.aside _ h.number) fun _ => .write _
  cases ask with
  | stream => exact hstream
  | ended => exact hended
  | drain => exact drainBySteps_steps _ hended hstream
  | takeNumber => exact .pure _

theorem Concat.skipEnded_steps (rest : List Nat) : Usual loud (Concat.skipEnded p rest) := by
  induction rest with
  | nil => exact .pure _
  | cons k rest ih =>
    exact .bind (Bound.on_steps k h.textEnded).onFirst fun _ => .ite (.bind (.change _) fun _ => ih) (.pure _)

theorem Concat.answer_steps (ask : TextAsk) : Usual ask.loud (Concat.answer p ask) := by
  have hended {loud : Bool} : Usual loud (Concat.ended p) :=
    .bind .look fun _ => .bind (Concat.skipEnded_steps h _) fun _ => .bind .look fun _ => .pure _
  have hstream : Usual true (Concat.stream p) := by
    refine .bind .look fun _ => .bind (Concat.skipEnded_steps h _) fun _ => .bind .look fun s => ?_
    split
    · exact .pure _
    · exact (Bound.on_steps _ h.stream).onFirst
  cases ask with
  | stream => exact hstream
  | ended => exact hended
  | drain => exact drainBySteps_steps _ hended hstream
  | takeNumber => exact .pure _

theorem Joiner.ofArgs_steps {act : Act (Joiner Value × Value) α} (hact : Usual loud act) :
    Usual loud (Joiner.ofArgs p act) := by
  refine .bind .look fun _ => .ite ?_ ?_
  · refine .bind (Bound.on_steps 0 (readAll_steps h)).onFirst fun _ => .bind (.change _) fun _ => ?_
    exact .bind (Bound.arg_steps 1).onFirst fun _ => .bind .look fun _ => hact.within _ _
  · exact .bind (Bound.arg_steps 1).onFirst fun _ => .bind .look fun _ => hact.within _ _

theorem Joiner.answerJoin_steps (ask : TextAsk) : Usual ask.loud (Joiner.answerJoin p ask) := by
  cases ask with
  | stream => exact Joiner.ofArgs_steps h (Joiner.stream_steps h)
  | ended => exact Joiner.ofArgs_steps h (Joiner.ended_steps h)
  | drain =>
    exact drainBySteps_steps _ (Joiner.ofArgs_steps h (Joiner.ended_steps h))
      (Joiner.ofArgs_steps h (Joiner.stream_steps h))
  | takeNumber => exact .pure _

theorem Cutter.fetch_steps (unit : TextUnit) : Usual loud (Cutter.fetch p unit) := by
  have hsettle : Usual loud (Cutter.settle p unit) := by
    refine .loop (fun _ => .bind .look fun _ => .ite (.pure _) ?_) _ _
    refine .bind h.textEnded.onSecond fun _ => .ite (.pure _) (.bind ?_ fun _ => .pure _)
    exact .bind .look fun _ => (Steps.gather h.stream).within _ _
  have hnext : Usual loud (Cutter.next p unit) := by
    refine .bind hsettle fun _ => .bind .look fun _ => .ite (.pure _) ?_
    exact .bind (.change _) fun _ => .pure _
  exact .bind .look fun _ => .ite (.bind hnext fun _ => .change _) (.pure _)

theorem Cutter.answer_steps (ty : Ty) (unit : TextUnit) (ask : ListAsk) :
    Usual loud (Cutter.answer p ty unit ask) := by
  have hfetch : Usual loud (Cutter.fetch p unit) := Cutter.fetch_steps h unit
  cases ask with
  | current =>
    refine .bind (.bind hfetch fun _ => .bind .look fun s => ?_) fun _ => .pure _
    split
    · exact .pure _
    · exact .fail rfl
  | advance => exact .bind hfetch fun _ => .change _
  | ended => exact .bind hfetch fun _ => .bind .look fun _ => .pure _
  | rewind => exact .fail rfl
  | count => exact .fail rfl

theorem answerUnits_steps (unit : TextUnit) (ask : ListAsk) : Usual loud (answerUnits p unit ask) :=
  .bind (Bound.arg_steps 0).onFirst fun _ => .bind .look fun _ => (Cutter.answer_steps h _ unit ask).within _ _

theorem ByteList.answer_steps (ask : ListAsk) : Usual loud (ByteList.answer p ask) := by
  have hfill : Usual loud (ByteList.fill p) := by
    refine .loop (fun _ => .bind .look fun _ => .ite (.pure _) ?_) _ _
    refine .bind (Bound.on_steps 0 h.textEnded).onFirst fun _ => .ite (.pure _) ?_
    refine .bind .look fun _ => .bind (Bound.arg_steps 0).onFirst fun _ => .bind ?_ fun _ => .pure _
    exact (Steps.gather h.stream).within _ _
  cases ask with
  | current =>
    refine .bind hfill fun _ => .bind .look fun s => ?_
    split
    · exact .pure _
    · exact .fail rfl
  | advance => exact .bind hfill fun _ => .change _
  | ended => exact .bind hfill fun _ => .bind .look fun _ => .pure _
  | rewind => exact .bind .look fun _ => .fail rfl
  | count => exact .bind .look fun _ => .fail rfl

theorem Splitter.fetch_steps : Usual loud (Splitter.fetch p) := by
  have hread : Usual loud (Splitter.readSeparator p) := by
    refine .bind .look fun s => ?_
    split
    · exact .pure _
    · exact .bind (Bound.on_steps 0 (readAll_steps h)).onFirst fun _ => .bind (.change _) fun _ => .pure _
  have hcut (separator : Bytes) : Usual loud (Splitter.cutPiece p separator) := by
    refine .loop (fun _ => .bind .look fun s => ?_) _ _
    obtain ⟨b, splitter⟩ := s
    dsimp only
    split
    · exact .bind (.put _) fun _ => .pure _
    · refine .bind (Bound.on_steps 1 h.textEnded).onFirst fun _ => .ite (.bind (.change _) fun _ => .pure _) ?_
      refine .bind .look fun _ => .bind (Bound.arg_steps 1).onFirst fun _ => .bind ?_ fun _ => .pure _
      exact (Steps.gather h.stream).within _ _
  refine .bind .look fun _ => .ite (.bind hread fun separator => .ite (.change _) (hcut separator)) (.pure _)

theorem Splitter.answer_steps (ask : ListAsk) : Usual loud (Splitter.answer p ask) := by
  have hfetch : Usual loud (Splitter.fetch p) := Splitter.fetch_steps h
  cases ask with
  | current =>
    refine .bind hfetch fun _ => .bind .look fun s => ?_
    split
    · exact .pure _
    · exact .fail rfl
  | advance => exact .bind hfetch fun _ => .change _
  | ended => exact .bind hfetch fun _ => .bind .look fun _ => .pure _
  | rewind => exact .bind .look fun _ => .fail rfl
  | count => exact .bind .look fun _ => .fail rfl

omit h in
theorem answerItems_steps (items : List Value) (ask : ListAsk) : Usual loud (answerItems items ask) := by
  cases ask with
  | current =>
    refine .bind .look fun k => ?_
    split
    · exact .pure _
    · exact .fail rfl
  | advance =>
    unfold answerItems
    exact .change _
  | ended => exact .bind .look fun _ => .pure _
  | rewind => exact .put _
  | count => exact .pure _

theorem answerRecast_steps (ty : Ty) (ask : ListAsk) : Usual loud (answerRecast p ty ask) := by
  cases ask with
  | current =>
    refine .bind h.current.onFirst fun item => .bind .look fun s => ?_
    split
    · exact coerce_steps h item _
    · exact .pure _
  | advance => exact .bind h.advance.onFirst fun _ => .change _
  | ended => exact h.listEnded.onFirst
  | rewind => exact .bind h.rewind.onFirst fun _ => .change _
  | count => exact h.count.onFirst

theorem answerMap_steps (ask : ListAsk) : Usual loud (answerMap p ask) := by
  cases ask with
  | current => exact .bind (Bound.on_steps 1 h.current) fun item => Bound.applyArg_steps h 0 item
  | advance => exact Bound.on_steps 1 h.advance
  | ended => exact Bound.on_steps 1 h.listEnded
  | rewind => exact Bound.on_steps 1 h.rewind
  | count => exact Bound.on_steps 1 h.count

omit h in
theorem answerRepeat_steps (ask : ListAsk) : Usual loud (answerRepeat p ask) := by
  cases ask with
  | current => exact .bind (Bound.arg_steps 0) fun _ => .pure _
  | advance => exact .pure _
  | ended => exact .pure _
  | rewind => exact .pure _
  | count => exact countBySteps_steps _ (.pure _) (.pure _) (.pure _)

theorem ZipWith.answer_steps (ask : ListAsk) : Usual loud (ZipWith.answer p ask) := by
  have hadvance : Usual loud (ZipWith.advance p) :=
    .bind (Bound.on_steps 1 h.advance) fun _ => Bound.on_steps 2 h.advance
  have hended : Usual loud (ZipWith.ended p) :=
    .bind (Bound.on_steps 1 h.listEnded) fun _ => .ite (.pure _) (Bound.on_steps 2 h.listEnded)
  have hrewind : Usual loud (ZipWith.rewind p) :=
    .bind (Bound.on_steps 1 h.rewind) fun _ => Bound.on_steps 2 h.rewind
  cases ask with
  | current =>
    refine .bind (Bound.on_steps 1 h.current) fun left => ?_
    refine .bind (.holding _ (Bound.on_steps 2 h.current)) fun right => ?_
    refine .bind (.holding _ (Bound.applyArg_steps h 0 left)) fun half => ?_
    exact .bind (.aside half (h.apply right)) fun _ => .pure _
  | advance => exact hadvance
  | ended => exact hended
  | rewind => exact hrewind
  | count => exact countBySteps_steps _ hrewind hended hadvance

theorem Take.answer_steps (ask : ListAsk) : Usual loud (Take.answer p ask) := by
  have hlimit : Usual loud (Take.readLimit p) := by
    refine .bind .look fun s => ?_
    split
    · exact .pure _
    · exact .bind (countArg_steps h 0).onFirst fun _ => .bind (.change _) fun _ => .pure _
  have hended : Usual loud (Take.ended p) :=
    .bind hlimit fun _ => .bind .look fun _ => .ite (.pure _) (Bound.on_steps 1 h.listEnded).onFirst
  have hadvance : Usual loud (Take.advance p) :=
    .bind (Bound.on_steps 1 h.advance).onFirst fun _ => .change _
  have hrewind : Usual loud (Take.rewind p) :=
    .bind (Bound.on_steps 1 h.rewind).onFirst fun _ => .change _
  cases ask with
  | current => exact .bind hended fun _ => .ite (.fail rfl) (Bound.on_steps 1 h.current).onFirst
  | advance => exact hadvance
  | ended => exact hended
  | rewind => exact hrewind
  | count => exact countBySteps_steps _ hrewind hended hadvance

theorem Drop.answer_steps (ask : ListAsk) : Usual loud (Drop.answer p ask) := by
  have hafter {α : Type} {act : Act Value α} (hact : Usual loud act) :
      Usual loud (Drop.after p act) := by
    refine .bind .look fun _ => .ite ?_ (Bound.on_steps 1 hact).onFirst
    refine .bind (countArg_steps h 0).onFirst fun n => .bind (Bound.on_steps 1 (skipItems_steps h n)).onFirst fun _ => ?_
    exact .bind (.change _) fun _ => (Bound.on_steps 1 hact).onFirst
  have hrewind : Usual loud (Drop.rewind p) :=
    .bind (Bound.on_steps 1 h.rewind).onFirst fun _ => .change _
  cases ask with
  | current => exact hafter h.current
  | advance => exact hafter h.advance
  | ended => exact hafter h.listEnded
  | rewind => exact hrewind
  | count => exact countBySteps_steps _ hrewind (hafter h.listEnded) (hafter h.advance)

theorem Tail.answer_steps (ask : ListAsk) : Usual loud (Tail.answer p ask) := by
  have hafter {α : Type} {act : Act Value α} (hact : Usual loud act) :
      Usual loud (Tail.after p act) := by
    have hfirst : Usual loud (do
        if ← p.listEnded then fail (.runtime .tailOfEmpty)
        p.advance) :=
      .bind h.listEnded fun _ => .ite (.bind (.fail rfl) fun _ => h.advance) h.advance
    refine .bind .look fun _ => .ite ?_ (Bound.on_steps 0 hact).onFirst
    exact .bind (Bound.on_steps 0 hfirst).onFirst fun _ => .bind (.change _) fun _ => (Bound.on_steps 0 hact).onFirst
  have hrewind : Usual loud (Tail.rewind p) :=
    .bind (Bound.on_steps 0 h.rewind).onFirst fun _ => .change _
  cases ask with
  | current => exact hafter h.current
  | advance => exact hafter h.advance
  | ended => exact hafter h.listEnded
  | rewind => exact hrewind
  | count => exact countBySteps_steps _ hrewind (hafter h.listEnded) (hafter h.advance)

theorem Init.answer_steps (ask : ListAsk) : Usual loud (Init.answer p ask) := by
  have hstart : Usual loud (Init.start p) := by
    refine .bind .look fun _ => .ite (.bind (Bound.on_steps 0 h.next).onFirst fun first => ?_) (.pure _)
    cases first with
    | none => exact .fail rfl
    | some first => exact .change _
  have hended : Usual loud (Init.ended p) :=
    .bind hstart fun _ => .bind .look fun _ => .ite (.pure _) (Bound.on_steps 0 h.listEnded).onFirst
  have hadvance : Usual loud (Init.advance p) :=
    .bind hstart fun _ => .bind (Bound.on_steps 0 h.next).onFirst fun _ => .change _
  have hrewind : Usual loud (Init.rewind p) :=
    .bind (Bound.on_steps 0 h.rewind).onFirst fun _ => .change _
  cases ask with
  | current =>
    refine .bind hended fun _ => .ite (.bind (.fail rfl) fun _ => .bind .look fun s => ?_) (.bind .look fun s => ?_)
    all_goals
      split
      · exact .pure _
      · exact .fail rfl
  | advance => exact hadvance
  | ended => exact hended
  | rewind => exact hrewind
  | count => exact countBySteps_steps _ hrewind hended hadvance

theorem Reverse.answer_steps (ask : ListAsk) : Usual loud (Reverse.answer p ask) := by
  have hcollect : Usual loud (Reverse.collect p) := by
    refine .bind .look fun s => ?_
    split
    · exact .pure _
    · exact .bind (Bound.on_steps 0 (drainItems_steps h)).onFirst fun _ => .bind (.change _) fun _ => .pure _
  cases ask with
  | current =>
    refine .bind hcollect fun items => .bind .look fun s => ?_
    split
    · exact .pure _
    · exact .fail rfl
  | advance =>
    unfold Reverse.answer
    exact .change _
  | ended => exact .bind hcollect fun _ => .bind .look fun _ => .pure _
  | rewind =>
    unfold Reverse.answer
    exact .change _
  | count => exact .bind hcollect fun _ => .pure _

theorem Choice.find_steps (choice : Choice) : Usual loud (choice.find p) := by
  cases choice with
  | head =>
    exact Bound.on_steps 0 (.bind h.listEnded fun _ => .ite (.bind (.fail rfl) fun _ => h.current) h.current)
  | last =>
    refine Bound.on_steps 0 (.bind (requireKind_steps _) fun _ => .bind (.loop (fun item => ?_) _ _) fun item => ?_)
    · refine .bind (.holding _ h.next) fun found => ?_
      cases found <;> exact .pure _
    · cases item with
      | none => exact .fail rfl
      | some item => exact .pure _
  | index =>
    have hitem (n : Float) : Usual loud (Bound.on 0 do
        skipItems p (countOf n)
        if ← p.listEnded then fail (.runtime (.indexOutOfRange n))
        p.current) := by
      refine Bound.on_steps 0 (.bind (skipItems_steps h _) fun _ => .bind h.listEnded fun _ => ?_)
      exact .ite (.bind (.fail rfl) fun _ => h.current) h.current
    exact .bind (Bound.on_steps 1 h.number) fun n => .ite (.bind (.fail rfl) fun _ => hitem n) (hitem n)

theorem Choice.onItem_steps (choice : Choice) {act : Act Value α} (hact : Usual loud act) :
    Usual loud (choice.onItem p act) := by
  refine .bind .look fun _ => .ite ?_ (.bind .look fun s => ?_)
  · refine .bind (Choice.find_steps h choice).onFirst fun item => .bind .look fun _ => ?_
    refine .bind (coerce_steps h item _) fun _ => .bind (.change _) fun _ => .bind .look fun s => ?_
    split
    · exact hact.within _ _
    · exact .fail rfl
  · split
    · exact hact.within _ _
    · exact .fail rfl

theorem Choice.apply_steps (choice : Choice) (x : Value) : Usual loud (choice.apply p x) := by
  have hfrom (b : Bound) : Usual loud (choice.chooseFrom p b : Act (Bound × Option Value) Value) :=
    .bind (.aside _ (.bind (Choice.find_steps h choice) fun item => coerce_steps h item _)) fun _ => .pure _
  refine .bind .look fun _ => .ite ?_ (.bind .look fun s => ?_)
  · refine .bind .look fun _ => .bind (.holding _ (hfrom _)) fun _ => .bind (.change _) fun _ => .bind .look fun s => ?_
    split
    · exact (h.apply x).within _ _
    · exact .fail rfl
  · split
    · exact (h.apply x).within _ _
    · exact .fail rfl

theorem Choice.takeNumber_steps (choice : Choice) : Usual loud (choice.takeNumber p) := by
  have heq : choice.takeNumber p = fun s => Result.orNone (choice.onItem p p.takeNumber s) := by
    funext s
    unfold Choice.takeNumber Result.orNone
    cases choice.onItem p p.takeNumber s with
    | ok => rfl
    | error stop => cases stop <;> rfl
  rw [heq]
  exact .orNone (Choice.onItem_steps h choice h.takeNumber)

theorem applyCurried_steps [Holder σ] (builtin : Builtin) (ty : Ty) (args : List Value) (x : Value) :
    Usual loud (applyCurried p builtin ty args x : Act σ Value) := by
  have hfinish (b : Bound) : Usual loud (finish p builtin b : Act σ Value) := by
    unfold finish
    split
    · exact .bind (.aside b (Bound.give_steps h _ _)) fun _ => .pure _
    · exact .pure _
  unfold applyCurried
  split
  · exact .bind (coerce_steps h x _) fun _ => .ite (.pure _) (hfinish _)
  · exact .fail rfl

theorem applyStages_steps (stages : List Value) (x : Value) : Usual loud (applyStages p x stages) := by
  induction stages generalizing x with
  | nil => exact .pure _
  | cons stage rest ih =>
    exact .bind ((h.apply x).within _ _) fun y => .bind .look fun _ => (ih y).within _ _

theorem applyFlipped_steps (x : Value) : Usual loud (applyFlipped p x) := by
  refine .bind (Bound.arg_steps 1) fun second => .bind (.holding _ (Bound.applyArg_steps h 0 x)) fun half => ?_
  exact .bind (.aside half (h.apply _)) fun _ => .pure _

theorem applyOutput_steps [Holder σ] (sink : Nat) (x : Value) : Usual loud (applyOutput p sink x : Act σ Value) :=
  .bind (coerce_steps h x _) fun text => .bind (.aside text (.intoSink sink h.drain)) fun _ => .pure _

theorem answerNumber_steps : Usual loud (answerNumber p) := by
  refine .bind .look fun value => ?_
  split
  · exact .pure _
  · exact .readMeter _
  · exact h.number.within _ _
  · refine Steps.within (.bind .look fun s => ?_) _ _
    split
    · exact .pure _
    · exact .bind (Calculation.run_steps h _).onFirst fun _ => .bind (.change _) fun _ => .pure _
  · exact (Choice.onItem_steps h _ h.number).within _ _
  · exact .fail rfl

theorem answerChosenText_steps (choice : Choice) (ask : TextAsk) :
    Usual ask.loud (answerChosenText p choice ask) := by
  cases ask with
  | takeNumber => exact Choice.takeNumber_steps h choice
  | stream => exact Choice.onItem_steps h choice h.stream
  | ended => exact Choice.onItem_steps h choice h.textEnded
  | drain => exact Choice.onItem_steps h choice h.drain

theorem answerText_steps (ask : TextAsk) : Usual ask.loud (answerText p ask) := by
  refine .bind .look fun value => ?_
  split
  · exact .zoom _ _ (answerLiteral_steps _ ask)
  · exact .zoom _ _ (answerChunks_steps _ _ ask)
  · exact .zoom _ _ (answerInput_steps _ _ ask)
  · exact (answerNumberText_steps h ask).within _ _
  · exact (Joiner.answer_steps h ask).within _ _
  · exact (h.pull (.text ask)).within _ _
  · exact (Once.answer_steps (Rendering.run_steps h _) (.pure _) ask).within _ _
  · exact (answerEncoding_steps h _ ask).within _ _
  · exact (Concat.answer_steps h ask).within _ _
  · exact (Joiner.answerJoin_steps h ask).within _ _
  · exact (answerChosenText_steps h _ ask).within _ _
  · exact .fail rfl

theorem answerList_steps (ask : ListAsk) : Usual loud (answerList p ask) := by
  refine .bind .look fun value => ?_
  split
  · exact .zoom _ _ (answerItems_steps _ ask)
  · exact (answerRecast_steps h _ ask).within _ _
  · exact (Cutter.answer_steps h _ _ ask).within _ _
  · exact (h.list ask).within _ _
  · exact (ByteList.answer_steps h ask).within _ _
  · exact (answerUnits_steps h _ ask).within _ _
  · exact (Splitter.answer_steps h ask).within _ _
  · exact (answerMap_steps h ask).within _ _
  · exact (answerRepeat_steps ask).within _ _
  · exact (ZipWith.answer_steps h ask).within _ _
  · exact (Take.answer_steps h ask).within _ _
  · exact (Drop.answer_steps h ask).within _ _
  · exact (Tail.answer_steps h ask).within _ _
  · exact (Init.answer_steps h ask).within _ _
  · exact (Reverse.answer_steps h ask).within _ _
  · exact (Choice.onItem_steps h _ (h.list ask)).within _ _
  · exact .fail rfl

theorem answerApply_steps (x : Value) : Usual loud (answerApply p x) := by
  refine .bind .look fun value => ?_
  split
  · exact (applyStages_steps h _ x).within _ _
  · exact applyOutput_steps h _ x
  · exact applyCurried_steps h _ _ _ x
  · exact (h.apply x).within _ _
  · exact (Steps.bind (Bound.arg_steps 0) fun _ => .pure _).within _ _
  · exact (applyFlipped_steps h x).within _ _
  · exact (Choice.apply_steps h _ x).within _ _
  · exact .fail rfl

theorem answer_steps (ask : Ask) : Usual ask.loud (answer p ask) := by
  refine .bind (.bind .look fun _ => .ite (.pure _) (.fail rfl)) fun _ => ?_
  cases ask with
  | number => exact answerNumber_steps h
  | text ask => exact answerText_steps h ask
  | list ask => exact answerList_steps h ask
  | apply x => exact answerApply_steps h x

end

theorem steady_puller (n : Nat) : (puller n).Steady := by
  induction n with
  | zero => exact ⟨fun _ => .outOfFuel⟩
  | succ n ih => exact ⟨fun ask => answer_steps ih ask⟩

end PullScript
