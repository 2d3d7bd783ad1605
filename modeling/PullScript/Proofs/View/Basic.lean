import PullScript.Eval.Puller

namespace PullScript

/-- What can be seen of a value. Texts and lists are seen at a place: how many chunks of the text, or
how many items of the list, lie before it. -/
inductive Query where
  | number
  | textEnded (i : Nat)
  | chunk (i : Nat)
  | whole
  | taken
  | listEnded (k : Nat)
  | item (k : Nat)
  | step (k : Nat)
  | applied (arg : Value)

namespace Query

@[reducible]
def Reply : Query → Type
  | number => Float
  | textEnded _ => Bool
  | chunk _ => Bytes
  | whole => Bytes
  | taken => Value.Numeric
  | listEnded _ => Bool
  | item _ => Value
  | step _ => Unit
  | applied _ => Value

def kind : Query → Kind
  | number => .num
  | textEnded _ | chunk _ | whole | taken => .str
  | listEnded _ | item _ | step _ => .lst
  | applied _ => .fn

/-- The type that is reported missing when a value of another kind is looked at. -/
def wantedTy : Query → Ty
  | applied arg => .arrow arg.ty (.unknown "b")
  | query => query.kind.anyTy

end Query

/-- A way to look at values, and fuel for loops. Looking shows the reply, or the error that pulling ends
with. -/
structure Viewer where
  fuel : Nat
  look : Value → (query : Query) → Option (Except Error query.Reply)

structure Viewer.Le (a b : Viewer) : Prop where
  fuel : a.fuel ≤ b.fuel
  look : ∀ {value : Value} {query : Query} {reply : Except Error query.Reply},
    a.look value query = some reply → b.look value query = some reply

/-- What is worked out from looking at values. Looking may show nothing, or an error; a viewer that sees
more works out the same. -/
structure View (α : Type) where
  run : Viewer → Option (Except Error α)
  mono : ∀ {a b : Viewer}, a.Le b → ∀ {x : Except Error α}, run a = some x → run b = some x

namespace View

variable {α β : Type}

variable {m : View α} {viewer : Viewer}

@[simp]
def andThen (next : α → Option (Except Error β)) : Except Error α → Option (Except Error β)
  | .ok x => next x
  | .error error => some (.error error)

instance : Monad View where
  pure x := ⟨fun _ => some (.ok x), fun _ _ h => h⟩
  bind m next := ⟨fun viewer => (m.run viewer).bind (andThen fun x => (next x).run viewer), by
    intro a b hab y h
    obtain ⟨x, hx, hy⟩ := Option.bind_eq_some_iff.1 h
    refine Option.bind_eq_some_iff.2 ⟨x, m.mono hab hx, ?_⟩
    cases x with
    | ok x => exact (next x).mono hab hy
    | error => exact hy⟩

@[simp]
theorem run_pure (x : α) (viewer : Viewer) : (pure x : View α).run viewer = some (.ok x) :=
  rfl

theorem ext {m' : View α} (h : ∀ viewer, m.run viewer = m'.run viewer) : m = m' := by
  cases m
  cases m'
  congr
  exact funext h

theorem run_bind (m : View α) (next : α → View β) (viewer : Viewer) :
    (m >>= next).run viewer = (m.run viewer).bind (andThen fun x => (next x).run viewer) :=
  rfl

instance : LawfulMonad View := by
  refine .mk' View (fun m => ext fun viewer => ?_) (fun _ _ => rfl) fun m next last => ext fun viewer => ?_
  · change (m.run viewer).bind (andThen fun x => some (.ok x)) = m.run viewer
    rcases m.run viewer with _ | _ | _ <;> rfl
  · simp only [run_bind]
    rcases m.run viewer with _ | _ | _ <;> rfl

theorem run_bind_eq_ok_iff {next : α → View β} {y : β} :
    (m >>= next).run viewer = some (.ok y) ↔
      ∃ x, m.run viewer = some (.ok x) ∧ (next x).run viewer = some (.ok y) := by
  rw [run_bind]
  rcases m.run viewer with _ | _ | _ <;> simp

theorem run_bind_eq_some_iff {next : α → View β} {y : Except Error β} :
    (m >>= next).run viewer = some y ↔
      (∃ x, m.run viewer = some (.ok x) ∧ (next x).run viewer = some y) ∨
        ∃ error, y = .error error ∧ m.run viewer = some (.error error) := by
  rw [run_bind]
  rcases m.run viewer with _ | _ | _ <;> simp [eq_comm]

def fail (error : Error) : View α :=
  ⟨fun _ => some (.error error), fun _ _ h => h⟩

def ask (value : Value) (query : Query) : View query.Reply :=
  ⟨fun viewer => viewer.look value query, fun h _ => h.look⟩

def ofOption (x : Option α) : View α :=
  ⟨fun _ => x.map .ok, fun _ _ h => h⟩

def getOr (error : Error) : Option α → View α
  | some x => pure x
  | none => fail error

def require (c : Prop) [Decidable c] (error : Error) : View Unit :=
  if c then pure () else fail error

def blaming (error : Error) (m : View α) : View α where
  run viewer := (m.run viewer).map (Except.mapError fun _ => error)
  mono hab _ h := by
    obtain ⟨x, hx, rfl⟩ := Option.map_eq_some_iff.1 h
    rw [m.mono hab hx]
    rfl

@[simp]
theorem run_fail (error : Error) (viewer : Viewer) : (fail error : View α).run viewer = some (.error error) :=
  rfl

@[simp]
theorem run_ofOption (x : Option α) (viewer : Viewer) : (ofOption x).run viewer = x.map .ok :=
  rfl

theorem run_blaming_eq_ok_iff {error : Error} {x : α} :
    (m.blaming error).run viewer = some (.ok x) ↔ m.run viewer = some (.ok x) := by
  change (m.run viewer).map _ = _ ↔ _
  rcases m.run viewer with _ | e | a
  · simp
  · change some (Except.error error : Except Error α) = _ ↔ _
    simp
  · exact Iff.rfl

theorem run_blaming_eq_error_iff {error e : Error} :
    (m.blaming error).run viewer = some (.error e) ↔ e = error ∧ ∃ e', m.run viewer = some (.error e') := by
  change (m.run viewer).map _ = _ ↔ _
  rcases m.run viewer with _ | e' | a
  · simp
  · change some (Except.error error : Except Error α) = _ ↔ _
    simp [eq_comm]
  · change some (Except.ok a : Except Error α) = _ ↔ _
    simp

theorem blaming_bind_blaming (m : View α) (next : α → View β) (error : Error) :
    (m >>= fun x => (next x).blaming error).blaming error = (m >>= next).blaming error := by
  refine ext fun viewer => ?_
  simp only [blaming, run_bind]
  rcases m.run viewer with _ | _ | x
  · rfl
  · rfl
  · simp only [Option.bind_some, andThen]
    rcases (next x).run viewer with _ | _ | _ <;> rfl

/-- Repeats `body` until it gives an answer on the right, handing on what it gives on the left, at
most so many times. -/
def rounds (body : β → View (β ⊕ α)) (viewer : Viewer) : Nat → β → Option (Except Error α)
  | 0, _ => none
  | fuel + 1, b =>
    match (body b).run viewer with
    | some (.ok (.inl b)) => rounds body viewer fuel b
    | some (.ok (.inr a)) => some (.ok a)
    | some (.error error) => some (.error error)
    | none => none

theorem rounds_mono {body : β → View (β ⊕ α)} {a b : Viewer} (hab : a.Le b) {n m : Nat} (hnm : n ≤ m)
    {start : β} {x : Except Error α} (h : rounds body a n start = some x) : rounds body b m start = some x := by
  induction n generalizing m start with
  | zero => simp [rounds] at h
  | succ n ih =>
    obtain _ | m := m
    · omega
    rw [rounds] at h
    split at h
    case h_1 next hnext =>
      rw [rounds, (body start).mono hab hnext]
      exact ih (by omega) h
    case h_2 y hy =>
      rw [rounds, (body start).mono hab hy]
      exact h
    case h_3 error herror =>
      rw [rounds, (body start).mono hab herror]
      exact h
    case h_4 => cases h

def loop (body : β → View (β ⊕ α)) (b : β) : View α :=
  ⟨fun viewer => rounds body viewer viewer.fuel b, fun hab _ => rounds_mono hab hab.fuel⟩

end View

end PullScript
