import PullScript.Proofs.View.Contents

namespace PullScript

open View

variable (feed : Feed)

def View.numberOf : Value → View Float
  | .number n => return n
  | .defined _ _ value => ask value .number
  | .suspended name ty args (.calculate c _) => c.view ⟨name, ty, args⟩
  | .suspended name ty args (.pick choice _) => do ask (← choice.view ⟨name, ty, args⟩) .number
  | value => fail (.typeMismatch value.ty .num)

def TextView.ofValue : Value → TextView
  | .text bytes _ => .once (return bytes)
  | .chunks parts _ => .ofParts parts
  | .input tap _ _ => .ofStock (feed tap)
  | .numberText (some source) _ =>
    .once (return Bytes.ofString (Number.toText (← ask source .number)))
  | .listText source joiner => .joined (.of source) joiner.separator
  | .defined _ _ value => .of value
  | .suspended name ty args (.render r _) => .once (r.view ⟨name, ty, args⟩)
  | .suspended name ty args (.encode e) => .encoded (.arg ⟨name, ty, args⟩ 0) e
  | .suspended name ty args (.concat state) => .concatenated ⟨name, ty, args⟩ state.order
  | .suspended name ty args (.join _) =>
    .after (argBytes ⟨name, ty, args⟩ 0) (.joined (.arg ⟨name, ty, args⟩ 1))
  | .suspended name ty args (.pick choice _) => .after (choice.view ⟨name, ty, args⟩) .of
  | value => .after (fail (.typeMismatch value.ty (.str false))) .of

def View.wholeOf : Value → View Bytes
  | .defined _ _ value => ask value .whole
  | .suspended name ty args (.pick choice _) => do ask (← choice.view ⟨name, ty, args⟩) .whole
  | value => (TextView.ofValue feed value).whole

def View.takenFrom : Value → View Value.Numeric
  | .numberText source _ => getOr (.runtime .numberTaken) (source.bind Value.asNumeric?)
  | .defined _ _ value => ask value .taken
  | .suspended name ty args (.pick choice _) => do ask (← choice.view ⟨name, ty, args⟩) .taken
  | _ => fail (.runtime .numberTaken)

def ListView.ofValue : Value → ListView
  | .list _ items _ => .ofItems items
  | .recast ty source _ => (ListView.of source).mapped fun k item =>
    match ty.elements[k % ty.elements.length]? with
    | some target => coerced item target
    | none => return item
  | .clusters source _ => .units (.of source) .grapheme
  | .defined _ _ value => .of value
  | .suspended name ty args (.bytes _) => .bytes (.arg ⟨name, ty, args⟩ 0)
  | .suspended name ty args (.units unit _) => .units (.arg ⟨name, ty, args⟩ 0) unit
  | .suspended name ty args (.split _) => .pieces (.arg ⟨name, ty, args⟩ 1) (argBytes ⟨name, ty, args⟩ 0)
  | .suspended name ty args .map =>
    (ListView.arg ⟨name, ty, args⟩ 1).mapped fun _ item => applyArg ⟨name, ty, args⟩ 0 item
  | .suspended name ty args .repeat => .endless (View.arg ⟨name, ty, args⟩ 0)
  | .suspended name ty args .zipWith =>
    .zipped (.arg ⟨name, ty, args⟩ 1) (.arg ⟨name, ty, args⟩ 2) fun x y => do
      ask (← applyArg ⟨name, ty, args⟩ 0 x) (.applied y)
  | .suspended name ty args (.take _) => (ListView.arg ⟨name, ty, args⟩ 1).taken (argCount ⟨name, ty, args⟩ 0)
  | .suspended name ty args (.drop _) => (ListView.arg ⟨name, ty, args⟩ 1).shifted (skipArg ⟨name, ty, args⟩)
  | .suspended name ty args (.tail _) => (ListView.arg ⟨name, ty, args⟩ 0).shifted do
    (ListView.of (← View.arg ⟨name, ty, args⟩ 0)).second
  | .suspended name ty args (.init _) => (ListView.arg ⟨name, ty, args⟩ 0).withoutLast
  | .suspended name ty args (.reverse _) => .gathered (gatherArg ⟨name, ty, args⟩)
  | .suspended name ty args (.pick choice _) => .after (choice.view ⟨name, ty, args⟩) .of
  | value => .after (fail (.typeMismatch value.ty .anyList)) .of

namespace View

/-- What a builtin makes of its arguments when it gives them up for one of them. -/
def given (b : Bound) (k : Nat) : Handing → View Value
  | .itself => arg b k
  | .copy => return (← arg b k).copy
  | .number => return .number (← argNumber b k)
  | .text => return .textOf (← argBytes b k)
  | .list => do
    let value ← arg b k
    expectKind value .lst
    return value.copy
  | .function => do
    let value ← arg b k
    expectKind value .fn
    return value.copy
  | .description => return .textOf (Bytes.ofString b.describe)

def finished (builtin : Builtin) (b : Bound) : View Value :=
  match builtin.job.start with
  | .inl (how, position) => given b position how
  | .inr task => return b.suspend task

def curriedApplied (builtin : Builtin) (ty : Ty) (args : List Value) (x : Value) : View Value :=
  match ty with
  | .arrow wanted _ => do
    let x ← coerced x wanted
    let ty := (ty.applied? x.ty).getD ty
    let args := Value.copyAll args ++ [x]
    if args.length < builtin.arity then return .curried builtin ty args
    finished builtin ⟨builtin.name, ty, args⟩
  | _ => fail (.typeMismatch ty (.arrow x.ty (.unknown "b")))

def through : List Value → Value → View Value
  | [], x => return x
  | stage :: rest, x => do through rest (← ask stage (.applied x))

def appliedTo (x : Value) : Value → View Value
  | .chain _ stages => through stages x
  | .curried builtin ty args => curriedApplied builtin ty args x
  | .defined _ _ value => ask value (.applied x)
  | .suspended name ty args .const => return (← arg ⟨name, ty, args⟩ 0).copy
  | .suspended name ty args .flip => do
    let second := (← arg ⟨name, ty, args⟩ 1).copy
    ask (← applyArg ⟨name, ty, args⟩ 0 x) (.applied second)
  | .suspended name ty args (.pick choice _) => do ask (← choice.view ⟨name, ty, args⟩) (.applied x)
  | value => fail (.typeMismatch value.ty (.arrow x.ty (.unknown "b")))

end View

def glanceFitting (value : Value) : (query : Query) → View query.Reply
  | .number => numberOf value
  | .textEnded i => (TextView.ofValue feed value).ended i
  | .chunk i => (TextView.ofValue feed value).chunk i
  | .whole => wholeOf feed value
  | .taken => takenFrom value
  | .listEnded k => (ListView.ofValue value).ended k
  | .item k => (ListView.ofValue value).item k
  | .step k => (ListView.ofValue value).step k
  | .applied x => appliedTo x value

/-- How values are seen. There is nothing to see for a query for another kind of value. -/
def glance (value : Value) (query : Query) : View query.Reply := do
  require (value.kind = query.kind) (.typeMismatch value.ty query.wantedTy)
  glanceFitting feed value query

def viewer : Nat → Viewer
  | 0 => ⟨0, fun _ _ => none⟩
  | n + 1 => ⟨n + 1, fun value query => (glance feed value query).run (viewer n)⟩

variable {feed}

theorem fuel_viewer (n : Nat) : (viewer feed n).fuel = n := by
  cases n <;> rfl

theorem viewer_le_succ (n : Nat) : (viewer feed n).Le (viewer feed (n + 1)) := by
  induction n with
  | zero => exact ⟨Nat.zero_le _, nofun⟩
  | succ n ih => exact ⟨Nat.le_succ _, fun h => (glance feed _ _).mono ih h⟩

theorem viewer_le {n m : Nat} (h : n ≤ m) : (viewer feed n).Le (viewer feed m) := by
  induction h with
  | refl => exact ⟨Nat.le_refl _, id⟩
  | step _ ih =>
    exact ⟨Nat.le_trans ih.fuel (viewer_le_succ _).fuel, fun h => (viewer_le_succ _).look (ih.look h)⟩

namespace View

variable {α β : Type} {m : View α} {x y : α} {error : Error}

variable {a : Option α} {next : α → View β} {body : β → View (β ⊕ α)} {b : β}

def Shows (feed : Feed) (m : View α) (x : Except Error α) : Prop :=
  ∃ n, m.run (viewer feed n) = some x

abbrev Gives (feed : Feed) (m : View α) (x : α) : Prop :=
  m.Shows feed (.ok x)

abbrev Fails (feed : Feed) (m : View α) (error : Error) : Prop :=
  m.Shows feed (.error error)

theorem Shows.unique {x y : Except Error α} (hx : m.Shows feed x) (hy : m.Shows feed y) : x = y := by
  obtain ⟨i, hi⟩ := hx
  obtain ⟨j, hj⟩ := hy
  have hx := m.mono (viewer_le (Nat.le_max_left i j)) hi
  have hy := m.mono (viewer_le (Nat.le_max_right i j)) hj
  exact Option.some.inj (hx.symm.trans hy)

theorem Gives.unique (hx : m.Gives feed x) (hy : m.Gives feed y) : x = y :=
  Except.ok.inj (Shows.unique hx hy)

theorem Gives.not_fails (hx : m.Gives feed x) (herror : m.Fails feed error) : False :=
  nomatch Shows.unique hx herror

@[simp]
theorem gives_pure_iff : (pure x : View α).Gives feed y ↔ x = y := by
  simp [Shows]

theorem Shows.pure (x : α) : (Pure.pure x : View α).Shows feed (.ok x) :=
  gives_pure_iff.2 rfl

@[simp]
theorem not_fails_pure : ¬ (pure x : View α).Fails feed error := by
  simp [Shows]

@[simp]
theorem not_gives_fail : ¬ (fail error : View α).Gives feed x := by
  simp [Shows]

@[simp]
theorem fails_fail_iff {e : Error} : (fail error : View α).Fails feed e ↔ error = e := by
  simp [Shows]

@[simp]
theorem gives_ofOption_iff : (ofOption a).Gives feed x ↔ a = some x := by
  cases a <;> simp [Shows]

@[simp]
theorem not_fails_ofOption : ¬ (ofOption a).Fails feed error := by
  cases a <;> simp [Shows]

@[simp]
theorem gives_getOr_iff : (getOr error a).Gives feed x ↔ a = some x := by
  cases a <;> simp [getOr]

@[simp]
theorem gives_arg_iff {b : Bound} {k : Nat} {a : Value} : (arg b k).Gives feed a ↔ b.args[k]? = some a :=
  gives_getOr_iff

theorem fails_arg {b : Bound} {k : Nat} (h : b.args[k]? = none) :
    (arg b k).Fails feed (.runtime (.missingArgument b.name (k + 1))) := by
  rw [arg, h]
  exact fails_fail_iff.2 rfl

@[simp]
theorem gives_require_iff {c : Prop} [Decidable c] : (require c error).Gives feed () ↔ c := by
  unfold require
  split <;> simp_all

theorem shows_bind_iff {r : Except Error β} :
    (m >>= next).Shows feed r ↔ (∃ x, m.Gives feed x ∧ (next x).Shows feed r) ∨
      ∃ error, r = .error error ∧ m.Fails feed error := by
  constructor
  · rintro ⟨n, h⟩
    obtain ⟨x, hx, hr⟩ | ⟨error, hr, h⟩ := run_bind_eq_some_iff.1 h
    · exact .inl ⟨x, ⟨n, hx⟩, n, hr⟩
    · exact .inr ⟨error, hr, n, h⟩
  · rintro (⟨x, ⟨i, hi⟩, j, hj⟩ | ⟨error, hr, n, h⟩)
    · refine ⟨max i j, run_bind_eq_some_iff.2 (.inl ⟨x, ?_, ?_⟩)⟩
      · exact m.mono (viewer_le (Nat.le_max_left i j)) hi
      · exact (next x).mono (viewer_le (Nat.le_max_right i j)) hj
    · exact ⟨n, run_bind_eq_some_iff.2 (.inr ⟨error, hr, h⟩)⟩

theorem gives_bind_iff {y : β} : (m >>= next).Gives feed y ↔ ∃ x, m.Gives feed x ∧ (next x).Gives feed y := by
  simp [Gives, shows_bind_iff]

@[simp]
theorem gives_map_iff {f : α → β} {y : β} : (f <$> m).Gives feed y ↔ ∃ x, m.Gives feed x ∧ f x = y := by
  simp only [map_eq_pure_bind, gives_bind_iff, gives_pure_iff]

theorem Gives.bind {r : Except Error β} (hx : m.Gives feed x) (hr : (next x).Shows feed r) :
    (m >>= next).Shows feed r :=
  shows_bind_iff.2 (.inl ⟨x, hx, hr⟩)

theorem Fails.bind (h : m.Fails feed error) : (m >>= next).Fails feed error :=
  shows_bind_iff.2 (.inr ⟨error, rfl, h⟩)

theorem fails_blaming_iff {e : Error} : (m.blaming error).Fails feed e ↔ e = error ∧ ∃ e', m.Fails feed e' := by
  constructor
  · rintro ⟨n, h⟩
    obtain ⟨he, e', h⟩ := run_blaming_eq_error_iff.1 h
    exact ⟨he, e', n, h⟩
  · rintro ⟨he, e', n, h⟩
    exact ⟨n, run_blaming_eq_error_iff.2 ⟨he, e', h⟩⟩

theorem shows_of_rounds {r : Except Error α} {n left : Nat} (h : rounds body (viewer feed n) left b = some r) :
    (loop body b).Shows feed r := by
  refine ⟨max n left, rounds_mono (viewer_le (Nat.le_max_left n left)) ?_ h⟩
  rw [fuel_viewer]
  exact Nat.le_max_right n left

theorem shows_loop_iff {r : Except Error α} :
    (loop body b).Shows feed r ↔
      (∃ b', (body b).Gives feed (.inl b') ∧ (loop body b').Shows feed r) ∨
        (body b).Shows feed (r.map .inr) := by
  constructor
  · rintro ⟨_ | n, h⟩
    · cases h
    · change rounds body (viewer feed (n + 1)) (n + 1) b = some r at h
      rw [rounds] at h
      split at h
      case h_1 b' hb' => exact .inl ⟨b', ⟨n + 1, hb'⟩, shows_of_rounds h⟩
      case h_2 y hy =>
        cases h
        exact .inr ⟨n + 1, hy⟩
      case h_3 error herror =>
        cases h
        exact .inr ⟨n + 1, herror⟩
      case h_4 => cases h
  · rintro (⟨b', ⟨i, hi⟩, j, hj⟩ | ⟨i, hi⟩)
    · refine ⟨max i j + 1, ?_⟩
      change rounds body (viewer feed (max i j + 1)) (max i j + 1) b = some r
      have hle : i ≤ max i j + 1 := by omega
      rw [rounds, (body b).mono (viewer_le hle) hi]
      refine rounds_mono (viewer_le (by omega)) ?_ hj
      rw [fuel_viewer]
      exact Nat.le_max_right i j
    · refine ⟨i + 1, ?_⟩
      change rounds body (viewer feed (i + 1)) (i + 1) b = some r
      rw [rounds, (body b).mono (viewer_le (Nat.le_succ i)) hi]
      cases r <;> rfl

theorem gives_loop_iff :
    (loop body b).Gives feed x ↔
      (∃ b', (body b).Gives feed (.inl b') ∧ (loop body b').Gives feed x) ∨
        (body b).Gives feed (.inr x) :=
  shows_loop_iff

end View

end PullScript
