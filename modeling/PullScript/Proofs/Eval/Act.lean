import PullScript.Eval.Act

namespace PullScript.Act

abbrev Result (σ α : Type) : Type :=
  EStateM.Result Stop (σ × World) α

variable {σ τ α β : Type} {s s' : σ × World}
variable {result : Result σ α} {act : Act σ α} {a : α} {stop : Stop} {rebuild : σ → τ} {restore : World → World}

def Result.answered : Result σ α → Bool
  | .ok .. => true
  | .error .. => false

theorem Result.answered_iff : result.answered = true ↔ ∃ a s, result = .ok a s := by
  cases result <;> simp [Result.answered]

/-- How work ends that was done on a part of a state, in a world that has to be put right. -/
def Result.on (rebuild : σ → τ) (restore : World → World) : Result σ α → Result τ α
  | .ok a (s, w) => .ok a (rebuild s, restore w)
  | .error stop (s, w) => .error stop (rebuild s, restore w)

def Result.beside (s : σ) : Result τ α → Result σ (α × τ)
  | .ok a (other, w) => .ok (a, other) (s, w)
  | .error stop (_, w) => .error stop (s, w)

/-- How work ends that is followed by a change of the state; work that fails leaves another state. -/
def Result.settle (change failed : σ → τ) : Result σ α → Result τ α
  | .ok a (s, w) => .ok a (change s, w)
  | .error stop (s, w) => .error stop (failed s, w)

def Result.blaming (error : Error) : Result σ α → Result σ α
  | .error (.failed _) s => .error (.failed error) s
  | result => result

/-- How work ends whose streamed bytes were gathered, `out` being where such bytes went before. -/
def Result.gathered (out : Sink) : Result σ Unit → Result σ Bytes
  | .ok () (s, w) => .ok w.out.bytes (s, { w with out })
  | .error stop (s, w) => .error stop (s, { w with out })

/-- How work ends whose streamed bytes were gathered behind those of a buffer. -/
def Result.gather (buffer : Bytes) (out : Sink) : Result σ α → Result (Bytes × σ) α
  | .ok a (s, w) => .ok a ((buffer ++ w.out.bytes, s), { w with out })
  | .error stop (s, w) => .error stop ((buffer ++ w.out.bytes, s), { w with out })

@[simp]
theorem pure_run (a : α) : (pure a : Act σ α) s = .ok a s :=
  rfl

@[simp]
theorem fail_run (error : Error) : (fail error : Act σ α) s = .error (.failed error) s :=
  rfl

@[simp]
theorem look_run : (look : Act σ σ) s = .ok s.1 s :=
  rfl

@[simp]
theorem put_run (part : σ) : (put part : Act σ Unit) s = .ok () (part, s.2) :=
  rfl

@[simp]
theorem change_run (f : σ → σ) : (change f : Act σ Unit) s = .ok () (f s.1, s.2) :=
  rfl

@[simp]
theorem world_run (f : World → α) : (world f : Act σ α) s = .ok (f s.2) s :=
  rfl

@[simp]
theorem changeWorld_run (f : World → World) : (changeWorld f : Act σ Unit) s = .ok () (s.1, f s.2) :=
  rfl

theorem bind_run (act : Act σ α) (next : α → Act σ β) :
    (act >>= next) s = match act s with
      | .ok a s => next a s
      | .error stop s => .error stop s := by
  change EStateM.bind act next s = _
  unfold EStateM.bind
  cases act s <;> rfl

theorem bind_of_ok (h : act s = .ok a s') (next : α → Act σ β) : (act >>= next) s = next a s' := by
  rw [bind_run, h]

theorem bind_of_error (h : act s = .error stop s') (next : α → Act σ β) : (act >>= next) s = .error stop s' := by
  rw [bind_run, h]

theorem bind_eq_ok_iff {next : α → Act σ β} {b : β} :
    (act >>= next) s = .ok b s' ↔ ∃ a s₁, act s = .ok a s₁ ∧ next a s₁ = .ok b s' := by
  rw [bind_run]
  cases act s with
  | ok a s₁ => exact ⟨fun h => ⟨a, s₁, rfl, h⟩, by rintro ⟨_, _, ⟨⟩, h⟩; exact h⟩
  | error stop s₁ => exact ⟨by rintro ⟨⟩, by rintro ⟨_, _, ⟨⟩, _⟩⟩

theorem ofExcept_eq_ok_iff {result : Except Error α} :
    (ofExcept result : Act σ α) s = .ok a s' ↔ result = .ok a ∧ s' = s := by
  cases result with
  | error error => simp [ofExcept]
  | ok b =>
    simp only [ofExcept, pure_run, EStateM.Result.ok.injEq, Except.ok.injEq]
    exact and_congr_right fun _ => eq_comm

theorem Result.on_eq_ok_iff {t : τ} {w : World} :
    result.on rebuild restore = .ok a (t, w) ↔ ∃ s, result = .ok a s ∧ t = rebuild s.1 ∧ w = restore s.2 := by
  cases result with
  | ok b s =>
    simp only [Result.on, EStateM.Result.ok.injEq, Prod.mk.injEq]
    constructor
    · rintro ⟨rfl, rfl, rfl⟩
      exact ⟨s, ⟨rfl, rfl⟩, rfl, rfl⟩
    · rintro ⟨_, ⟨rfl, rfl⟩, rfl, rfl⟩
      exact ⟨rfl, rfl, rfl⟩
  | error stop s => simp [Result.on]

theorem Result.on_eq_error_iff {t : τ × World} :
    result.on rebuild restore = .error stop t ↔ ∃ s, result = .error stop s ∧ t = (rebuild s.1, restore s.2) := by
  cases result with
  | ok b s => simp [Result.on]
  | error other s =>
    simp only [Result.on, EStateM.Result.error.injEq]
    constructor
    · rintro ⟨rfl, rfl⟩
      exact ⟨s, ⟨rfl, rfl⟩, rfl⟩
    · rintro ⟨_, ⟨rfl, rfl⟩, rfl⟩
      exact ⟨rfl, rfl⟩

theorem zoom_run (part : τ) (rebuild : τ → σ) (act : Act τ α) (s : σ) (w : World) :
    zoom part rebuild act (s, w) = Result.on rebuild id (act (part, w)) := by
  simp only [zoom]
  cases act (part, w) <;> rfl

theorem holding_run (values : List Value) (act : Act σ α) (s : σ) (w : World) :
    holding values act (s, w) = Result.on id (fun w₁ => { w₁ with around := w.around })
      (act (s, { w with around := values :: w.around })) := by
  simp only [holding]
  cases act (s, { w with around := values :: w.around }) <;> rfl

theorem within_run [Holder σ] [Inhabited τ] (part : τ) (rebuild : τ → σ) (act : Act τ α) (s : σ) (w : World) :
    within part rebuild act (s, w) = Result.on rebuild (fun w₁ => { w₁ with around := w.around })
      (act (part, { w with around := held (rebuild default) :: w.around })) := by
  rw [within, zoom_run, holding_run]
  cases act (part, { w with around := held (rebuild default) :: w.around }) <;> rfl

theorem onFirst_of_ok [Holder σ] [Holder τ] [Inhabited σ] {s : σ} (h : ∀ w, act (s, w) = .ok a (s, w)) (t : τ)
    (w : World) : onFirst act ((s, t), w) = .ok a ((s, t), w) := by
  change within s (fun s => (s, t)) act ((s, t), w) = _
  rw [within, zoom_run, holding_run, h]
  rfl

theorem onFirst_of_fail [Holder σ] [Holder τ] [Inhabited σ] {error : Error} {s : σ}
    (h : ∀ w, act (s, w) = (fail error : Act σ α) (s, w)) (t : τ) (w : World) :
    onFirst act ((s, t), w) = (fail error : Act (σ × τ) α) ((s, t), w) := by
  change within s (fun s => (s, t)) act ((s, t), w) = _
  rw [within, zoom_run, holding_run, h]
  rfl

theorem aside_run [Holder σ] (other : τ) (act : Act τ α) (s : σ) (w : World) :
    aside other act (s, w) = Result.beside s (holding (held s) act (other, w)) := by
  simp only [aside]
  cases holding (held s) act (other, w) <;> rfl

theorem aside_change_run [Holder σ] (other : τ) (act : Act τ Unit) (f : τ → σ → σ) (s : σ) (w : World) :
    (aside other act >>= fun x => change (f x.2)) (s, w) =
      Result.settle (f · s) (fun _ => s) (holding (held s) act (other, w)) := by
  rw [bind_run, aside_run]
  cases holding (held s) act (other, w) <;> rfl

theorem intoSink_run (sink : Nat) (act : Act σ α) (s : σ) (w : World) :
    intoSink sink act (s, w) = Result.on id
      (fun w₁ => { w₁ with out := w.out, sinks := w₁.sinks.setIfInBounds sink w₁.out })
      (act (s, { w with out := w.sinks.getD sink {} })) := by
  simp only [intoSink]
  cases act (s, { w with out := w.sinks.getD sink {} }) <;> rfl

theorem gathered_run (act : Act σ Unit) (s : σ) (w : World) :
    gathered act (s, w) = Result.gathered w.out (act (s, { w with out := {} })) := by
  simp only [gathered]
  cases act (s, { w with out := {} }) <;> rfl

theorem gather_run (act : Act σ α) (buffer : Bytes) (s : σ) (w : World) :
    gather act ((buffer, s), w) = Result.gather buffer w.out (act (s, { w with out := {} })) := by
  simp only [gather]
  cases act (s, { w with out := {} }) <;> rfl

end PullScript.Act
