import Mathlib
import PullScript.Proofs.Eval.Steps
import PullScript.Proofs.Running
import PullScript.Proofs.World.Sink

namespace PullScript

open Act

variable {σ τ α β : Type}
variable {next : α → Act σ β} {limit : Nat} {p : Puller}

namespace World

def capped (limit : Nat) (w : World) : World :=
  { w with out := { w.out with limit := some limit } }

end World

def Act.Result.world : Act.Result σ α → World
  | .ok _ s => s.2
  | .error _ s => s.2

theorem Act.Result.world_on (rebuild : σ → τ) (restore : World → World) (result : Act.Result σ α) :
    (result.on rebuild restore).world = restore result.world := by
  cases result <;> rfl

theorem Act.Result.world_beside (s : σ) (result : Act.Result τ α) : (result.beside s).world = result.world := by
  cases result <;> rfl

theorem Act.Result.on_id_on (rebuild : σ → τ) (restore : World → World) (result : Act.Result σ α) :
    (result.on id restore).on rebuild id = (result.on rebuild id).on id restore := by
  cases result <;> rfl

theorem Act.Result.beside_on_id (s : σ) (restore : World → World) (result : Act.Result τ α) :
    (result.on id restore).beside s = (result.beside s).on id restore := by
  cases result <;> rfl

def Quiet (act : Act σ α) : Prop :=
  ∀ s w out, act (s, { w with out }) = Result.on id (fun w₁ => { w₁ with out }) (act (s, w))

namespace Quiet

variable {act : Act σ α}

theorem out_eq (h : Quiet act) (s : σ) (w : World) : (Result.world (act (s, w))).out = w.out := by
  have hsame : Result.world (act (s, w)) = { Result.world (act (s, w)) with out := w.out } :=
    (congrArg Result.world (h s w w.out)).trans (Result.world_on ..)
  rw [hsame]

theorem bind (h : Quiet act) (hnext : ∀ a, Quiet (next a)) : Quiet (act >>= next) := by
  intro s w out
  rw [bind_run, bind_run, h]
  cases act (s, w) with
  | ok a s₁ => exact hnext a s₁.1 s₁.2 out
  | error stop s₁ => rfl

theorem zoom {act : Act τ α} (h : Quiet act) (part : τ) (rebuild : τ → σ) : Quiet (Act.zoom part rebuild act) := by
  intro s w out
  rw [zoom_run, zoom_run, h]
  cases act (part, w) <;> rfl

theorem holding (h : Quiet act) (values : List Value) : Quiet (Act.holding values act) := by
  intro s w out
  rw [holding_run, holding_run]
  have hheld := h s { w with around := values :: w.around } out
  dsimp only at hheld ⊢
  rw [hheld]
  cases act (s, { w with around := values :: w.around }) <;> rfl

theorem aside [Holder σ] {act : Act τ α} (h : Quiet act) (other : τ) : Quiet (Act.aside other act : Act σ (α × τ)) := by
  intro s w out
  rw [aside_run, aside_run, h.holding]
  cases Act.holding (held s) act (other, w) <;> rfl

theorem orNone {act : Act σ (Option α)} (h : Quiet act) : Quiet fun s => Result.orNone (act s) := by
  intro s w out
  dsimp only
  rw [h]
  cases act (s, w) with
  | ok a s₁ => rfl
  | error stop s₁ => cases stop <;> rfl

theorem gathered (act : Act σ Unit) : Quiet (Act.gathered act) := by
  intro s w out
  rw [gathered_run, gathered_run]
  cases act (s, { w with out := {} }) <;> rfl

theorem gather (act : Act σ α) : Quiet (Act.gather act) := by
  rintro ⟨buffer, s⟩ w out
  rw [gather_run, gather_run]
  cases act (s, { w with out := {} }) <;> rfl

theorem intoSink (sink : Nat) (act : Act σ α) : Quiet (Act.intoSink sink act) := by
  intro s w out
  rw [intoSink_run, intoSink_run]
  cases act (s, { w with out := w.sinks.getD sink {} }) <;> rfl

theorem readMeter (meter : Nat) : Quiet (Act.readMeter meter : Act σ Float) := by
  intro s w out
  simp only [Act.readMeter, bind_run, world_run, changeWorld_run]
  cases (w.meters.getD meter { n := 0 }).failure <;> rfl

theorem fillTap (tap offset : Nat) : Quiet (Act.fillTap tap offset : Act σ Tap) := by
  intro s w out
  simp only [Act.fillTap, bind_run, world_run, changeWorld_run]
  cases ((w.taps.getD tap { reads := [] }).fillFor offset).2 <;> rfl

end Quiet

variable {act : Act σ α}

theorem Act.Steps.quiet_run {E : Error → Prop} (h : Steps E false act) : Quiet act := by
  generalize hquiet : false = loud at h
  induction h with
  | pure a => exact fun _ _ _ => rfl
  | fail _ => exact fun _ _ _ => rfl
  | outOfFuel => exact fun _ _ _ => rfl
  | look => exact fun _ _ _ => rfl
  | change f => exact fun _ _ _ => rfl
  | readMeter meter => exact .readMeter meter
  | fillTap tap offset => exact .fillTap tap offset
  | write bytes => cases hquiet
  | streamTap tap offset => cases hquiet
  | bind _ _ ih ihnext => exact (ih hquiet).bind fun a => ihnext a hquiet
  | zoom part rebuild _ ih => exact (ih hquiet).zoom part rebuild
  | holding values _ ih => exact (ih hquiet).holding values
  | aside other _ ih => exact (ih hquiet).aside other
  | gathered => exact .gathered _
  | gather => exact .gather _
  | intoSink sink => exact .intoSink sink _
  | orNone _ ih => exact (ih rfl).orNone

def Appends (act : Act σ α) : Prop :=
  ∀ s w, w.out.limit = none → (Result.world (act (s, w))).out.limit = none ∧
    w.out.bytes <+: (Result.world (act (s, w))).out.bytes

/-- How much a sink with a limit keeps, in a world in which there is none yet. What is there stays there. -/
def World.room (limit : Nat) (w : World) : Nat :=
  max limit w.out.bytes.length

/-- A limit makes no difference when what is written stays within it; otherwise the sink has kept the
front of what is written without a limit, and the work has failed. -/
def Obeys (limit : Nat) (act : Act σ α) : Prop :=
  ∀ s w, w.out.limit = none →
    ((Result.world (act (s, w))).out.bytes.length ≤ w.room limit ∧
      act (s, w.capped limit) = Result.on id (World.capped limit) (act (s, w))) ∨
    (w.room limit < (Result.world (act (s, w))).out.bytes.length ∧
      ∃ s', act (s, w.capped limit) = .error (.failed (.io "sink full")) s' ∧
        s'.2.out.bytes = (Result.world (act (s, w))).out.bytes.take (w.room limit))

theorem Quiet.appends (h : Quiet act) : Appends act := by
  intro s w hlimit
  rw [h.out_eq]
  exact ⟨hlimit, List.prefix_refl _⟩

theorem Quiet.obeys (h : Quiet act) (limit : Nat) : Obeys limit act := by
  intro s w hlimit
  refine .inl ⟨by rw [h.out_eq]; exact Nat.le_max_right _ _, ?_⟩
  rw [World.capped, h]
  have hout := h.out_eq s w
  cases hact : act (s, w) with
  | ok a s₁ =>
    rw [hact] at hout
    simp only [Result.on, World.capped, show s₁.2.out = w.out from hout]
  | error stop s₁ =>
    rw [hact] at hout
    simp only [Result.on, World.capped, show s₁.2.out = w.out from hout]

theorem Appends.bind (h : Appends act) (hnext : ∀ a, Appends (next a)) : Appends (act >>= next) := by
  intro s w hlimit
  have hact := h s w hlimit
  rw [bind_run]
  cases hrun : act (s, w) with
  | ok a s₁ =>
    rw [hrun] at hact
    have happended := hnext a s₁.1 s₁.2 hact.1
    exact ⟨happended.1, hact.2.trans happended.2⟩
  | error stop s₁ =>
    rw [hrun] at hact
    exact hact

theorem Obeys.bind (h : Obeys limit act) (happends : Appends act) (hnext : ∀ a, Obeys limit (next a))
    (hnextAppends : ∀ a, Appends (next a)) : Obeys limit (act >>= next) := by
  intro s w hlimit
  have hact := h s w hlimit
  have happended := happends s w hlimit
  rw [bind_run, bind_run]
  cases hrun : act (s, w) with
  | ok a s₁ =>
    rw [hrun] at hact happended
    obtain ⟨hwithin, hsame⟩ | ⟨hover, s', hfull, hfront⟩ := hact
    · have hroom : s₁.2.room limit = w.room limit := by
        have hmore : w.out.bytes.length ≤ s₁.2.out.bytes.length := happended.2.length_le
        have hkept : s₁.2.out.bytes.length ≤ max limit w.out.bytes.length := hwithin
        simp only [World.room]
        omega
      rw [hsame, ← hroom]
      exact hnext a s₁.1 s₁.2 happended.1
    · -- the sink was full before, and what is written later does not change its front
      have hmore := (hnextAppends a s₁.1 s₁.2 happended.1).2
      rw [hfull]
      refine .inr ⟨Nat.lt_of_lt_of_le hover hmore.length_le, s', rfl, hfront.trans ?_⟩
      obtain ⟨more, hmore⟩ := hmore
      exact (List.take_append_of_le_length (Nat.le_of_lt hover)).symm.trans (congrArg (List.take _) hmore)
  | error stop s₁ =>
    rw [hrun] at hact
    obtain ⟨hwithin, hsame⟩ | ⟨hover, s', hfull, hfront⟩ := hact
    · exact .inl ⟨hwithin, by rw [hsame]; rfl⟩
    · exact .inr ⟨hover, s', by rw [hfull], hfront⟩

theorem write_appends (bytes : Bytes) : Appends (write bytes : Act σ Unit) := by
  intro s w hlimit
  simp only [write, Sink.write_of_limit_none hlimit, Result.world]
  exact ⟨hlimit, by simp [Sink.bytes]⟩

theorem write_obeys (limit : Nat) (bytes : Bytes) : Obeys limit (write bytes : Act σ Unit) := by
  intro s w hlimit
  simp only [write, Sink.write_of_limit_none hlimit, Result.world, World.capped, World.room]
  have hsize : w.out.bytes.length = w.out.written.size := Array.length_toList
  have hwritten (more : Bytes) (limit : Option Nat) : Sink.bytes ⟨w.out.written ++ more, limit⟩ = w.out.bytes ++ more := by
    simp [Sink.bytes]
  rw [hwritten, List.length_append]
  by_cases hfits : bytes.length ≤ limit - w.out.written.size
  · refine .inl ⟨by omega, ?_⟩
    simp only [Sink.write, List.take_of_length_le hfits, decide_eq_true hfits]
    rfl
  · refine .inr ⟨by omega, (s, { w with out := ⟨w.out.written ++ bytes.take (limit - w.out.written.size), some limit⟩ }),
      ?_, ?_⟩
    · simp only [Sink.write, decide_eq_false hfits]
    · rw [hwritten, List.take_append, List.take_of_length_le (Nat.le_max_right ..), hsize,
        show max limit w.out.written.size - w.out.written.size = limit - w.out.written.size by omega]

theorem settleTap_quiet (tap : Nat) (t : Tap) : Quiet (do
    let oldest ← world fun w => (w.offsetsAround tap).foldl min t.upto
    changeWorld fun w => { w with taps := w.taps.setIfInBounds tap (t.trim oldest) }
    return t.upto : Act σ Nat) :=
  fun _ _ _ => rfl

theorem Appends.holding (h : Appends act) (values : List Value) : Appends (holding values act) := by
  intro s w hlimit
  rw [holding_run, Result.world_on]
  exact h s { w with around := values :: w.around } hlimit

theorem Obeys.holding (h : Obeys limit act) (values : List Value) : Obeys limit (holding values act) := by
  intro s w hlimit
  rw [holding_run, holding_run, Result.world_on]
  obtain ⟨hwithin, hsame⟩ | ⟨hover, s', hfull, hfront⟩ := h s { w with around := values :: w.around } hlimit
  · refine .inl ⟨hwithin, ?_⟩
    simp only [World.capped] at hsame ⊢
    rw [hsame]
    cases act (s, { w with around := values :: w.around }) <;> rfl
  · refine .inr ⟨hover, (s'.1, { s'.2 with around := w.around }), ?_, hfront⟩
    simp only [World.capped] at hfull ⊢
    rw [hfull]
    rfl

namespace Act.Steps

variable {E : Error → Prop} {loud : Bool}

theorem appends {act : Act σ α} (h : Steps E loud act) : Appends act := by
  induction h with
  | pure a => exact (Steps.pure (E := E) a).quiet_run.appends
  | fail herror => exact (Steps.fail herror).quiet_run.appends
  | outOfFuel => exact (Steps.outOfFuel (E := E)).quiet_run.appends
  | look => exact (Steps.look (E := E)).quiet_run.appends
  | change f => exact (Steps.change (E := E) f).quiet_run.appends
  | readMeter meter => exact (Quiet.readMeter meter).appends
  | fillTap tap offset => exact (Quiet.fillTap tap offset).appends
  | write bytes => exact write_appends bytes
  | streamTap tap offset =>
    exact (Quiet.fillTap tap offset).appends.bind fun t => (write_appends _).bind fun _ => (settleTap_quiet tap t).appends
  | bind _ _ ih ihnext => exact ih.bind ihnext
  | zoom part rebuild _ ih =>
    intro s w hlimit
    rw [zoom_run, Result.world_on]
    exact ih part w hlimit
  | holding values _ ih => exact ih.holding values
  | aside other _ ih =>
    intro s w hlimit
    rw [aside_run, Result.world_beside]
    exact ih.holding (held s) other w hlimit
  | gathered h _ => exact (Quiet.gathered _).appends
  | gather h _ => exact (Quiet.gather _).appends
  | intoSink sink h _ => exact (Quiet.intoSink sink _).appends
  | orNone h _ => exact h.quiet_run.orNone.appends

theorem obeys (limit : Nat) {act : Act σ α} (h : Steps E loud act) : Obeys limit act := by
  induction h with
  | pure a => exact (Steps.pure (E := E) a).quiet_run.obeys limit
  | fail herror => exact (Steps.fail herror).quiet_run.obeys limit
  | outOfFuel => exact (Steps.outOfFuel (E := E)).quiet_run.obeys limit
  | look => exact (Steps.look (E := E)).quiet_run.obeys limit
  | change f => exact (Steps.change (E := E) f).quiet_run.obeys limit
  | readMeter meter => exact (Quiet.readMeter meter).obeys limit
  | fillTap tap offset => exact (Quiet.fillTap tap offset).obeys limit
  | write bytes => exact write_obeys limit bytes
  | streamTap tap offset =>
    refine (Quiet.fillTap tap offset).obeys limit |>.bind (Quiet.fillTap tap offset).appends (fun t => ?_) fun t => ?_
    · exact (write_obeys limit _).bind (write_appends _) (fun _ => (settleTap_quiet tap t).obeys limit)
        fun _ => (settleTap_quiet tap t).appends
    · exact (write_appends _).bind fun _ => (settleTap_quiet tap t).appends
  | bind h hnext ih ihnext => exact ih.bind h.appends ihnext fun a => (hnext a).appends
  | zoom part rebuild _ ih =>
    intro s w hlimit
    rw [zoom_run, zoom_run, Result.world_on]
    obtain ⟨hwithin, hsame⟩ | ⟨hover, s', hfull, hfront⟩ := ih part w hlimit
    · refine .inl ⟨hwithin, ?_⟩
      rw [hsame, Result.on_id_on]
    · refine .inr ⟨hover, (rebuild s'.1, s'.2), ?_, hfront⟩
      rw [hfull]
      rfl
  | holding values _ ih => exact ih.holding values
  | aside other _ ih =>
    intro s w hlimit
    rw [aside_run, aside_run, Result.world_beside]
    obtain ⟨hwithin, hsame⟩ | ⟨hover, s', hfull, hfront⟩ := ih.holding (held s) other w hlimit
    · refine .inl ⟨hwithin, ?_⟩
      rw [hsame, Result.beside_on_id]
    · refine .inr ⟨hover, (s, s'.2), ?_, hfront⟩
      rw [hfull]
      rfl
  | gathered h _ => exact (Quiet.gathered _).obeys limit
  | gather h _ => exact (Quiet.gather _).obeys limit
  | intoSink sink h _ => exact (Quiet.intoSink sink _).obeys limit
  | orNone h _ => exact h.quiet_run.orNone.obeys limit

end Act.Steps

theorem captured_fst (result : Act.Result σ Unit) : (Act.Result.captured result).1 = result.world.out.bytes := by
  cases result <;> rfl

theorem captured_on (restore : World → World) (hrestore : ∀ w, (restore w).out.bytes = w.out.bytes)
    (result : Act.Result σ Unit) : Result.captured (result.on id restore) = Result.captured result := by
  cases result <;> simp [Result.on, Result.captured, hrestore]

theorem Obeys.captured {act : Act σ Unit} (h : Obeys limit act) {s : σ} {w : World} (hlimit : w.out.limit = none) :
    Result.captured (act (s, w.capped limit)) =
      if (Result.captured (act (s, w))).1.length ≤ w.room limit then Result.captured (act (s, w))
      else ((Result.captured (act (s, w))).1.take (w.room limit), some (.failed (.io "sink full"))) := by
  rw [captured_fst]
  obtain ⟨hwithin, hsame⟩ | ⟨hover, s', hfull, hfront⟩ := h s w hlimit
  · rw [if_pos hwithin, hsame]
    exact captured_on (World.capped limit) (fun _ => rfl) _
  · rw [if_neg (Nat.not_le_of_lt hover), hfull, ← hfront]
    rfl

namespace Application

theorem result_steps (h : p.Steady) (tap : Nat) {loud : Bool} : Steps Error.Placeless loud (result p tap) := by
  have hroot : Steps Error.Placeless loud theRoot := by
    refine .bind .look fun app => ?_
    split
    · exact .pure _
    · exact .fail rfl
  refine .bind hroot fun root => .bind .look fun app => .ite ?_ (.ite (.pure _) (.fail rfl))
  have happly (wanted : Ty) : Steps Error.Placeless loud (do
      let arg ← coerce p (.input tap 0 true) wanted
      within root (fun root => { app with root := some root }) (p.apply arg) : Act Application Value) :=
    .bind (coerce_steps h _ _) fun arg => (h.apply arg).within _ _
  refine .ite (.bind (.ofOption _) fun _ => .ite (.bind (.fail rfl) fun _ => happly _) (happly _)) (happly _)

theorem runFrom_steps (h : p.Steady) (tap : Nat) : Steps Error.Placeless true (runFrom p tap) := by
  refine .bind (result_steps h tap) fun value => .bind (coerce_steps h value _) fun text => ?_
  exact .bind (.aside text h.drain) fun _ => .pure _

/-- What a run writes to a sink with a limit is the front of what it writes to one without. It ends in the
same way if that is all of it, and for want of room otherwise. -/
theorem writes_limited {fuel : Nat} {reads : List Read} {s : Application × World} {bytes : Bytes}
    {stop : Option Stop} (h : Writes fuel reads {} s bytes stop) (limit : Nat) :
    Writes fuel reads { limit := some limit } s (bytes.take limit)
      (if bytes.length ≤ limit then stop else some (.failed (.io "sink full"))) := by
  obtain ⟨app, w⟩ := s
  rw [writes_iff] at h ⊢
  have hcaptured := Obeys.captured ((runFrom_steps (steady_puller fuel) w.taps.size).obeys limit) (s := app)
    (w := { w with out := {}, taps := w.taps.push { reads } }) rfl
  have hroom : World.room limit { w with out := {}, taps := w.taps.push { reads } } = limit := Nat.max_zero limit
  rw [h, hroom] at hcaptured
  refine hcaptured.trans ?_
  split
  case isTrue hwithin => rw [List.take_of_length_le hwithin]
  case isFalse => rfl

/-- A text before the input, with room for two bytes. -/
theorem writes_limited_affixed :
    let affix : Builtin := ⟨"prefix", "Str -> Str* -> Str*", 2, "", .concat [0, 1]⟩
    let root : Value := .curried affix (.arrow (.str true) (.str true)) [.textOf [62]]
    let app : Application := { scope := { registry := ⟨[]⟩ }, root := some root }
    Writes 9 [.chunk [104], .chunk [105]] {} (app, {}) [62, 104, 105] none ∧
      Writes 9 [.chunk [104], .chunk [105]] { limit := some 2 } (app, {}) [62, 104]
        (some (.failed (.io "sink full"))) := by
  intro affix root app
  have hwrites : Writes 9 [.chunk [104], .chunk [105]] {} (app, {}) [62, 104, 105] none :=
    writes_iff.2 (by cbv)
  exact ⟨hwrites, writes_limited hwrites 2⟩

end Application

end PullScript
