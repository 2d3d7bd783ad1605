import PullScript.Proofs.View.Rules

namespace PullScript

variable {task : Task Value} {values : List Value} {k : Nat} {error : Error} {f : Value} {builtin : Builtin}

def Task.Unbegun : Task Value → Prop
  | .calculate _ known => known = none
  | .render _ once => once = {}
  | .concat state => state.rest = state.order
  | .join joiner => joiner = none
  | .bytes ahead => ahead = []
  | .units _ cutter => cutter = {}
  | .split splitter => splitter = {}
  | .take state => state = {}
  | .drop skipped => skipped = false
  | .tail started => started = false
  | .init state => state = {}
  | .reverse state => state = {}
  | .pick _ item => item = none
  | .encode _ | .map | .repeat | .zipWith | .const | .flip => True

theorem Job.unbegun_start {job : Job} (h : job.start = .inr task) : task.Unbegun := by
  cases job <;> cases h <;> simp [Task.Unbegun]

theorem Task.Unbegun.restarted (h : task.Unbegun) : task.restarted.Unbegun := by
  cases task <;> simp_all [Task.Unbegun, Task.restarted]

namespace Value

mutual

/-- Nothing has been pulled from the value, and it counts no reads and writes to no sink. -/
def Unpulled : Value → Prop
  | number _ => True
  | text _ read => read = false
  | chunks _ position => position = 0
  | input _ offset _ => offset = 0
  | numberText source once => UnpulledOption source ∧ once = {}
  | listText source joiner => source.Unpulled ∧ joiner.item = none ∧ joiner.started = false
  | list _ items position => UnpulledAll items ∧ position = 0
  | recast _ source position => source.Unpulled ∧ position = 0
  | clusters source cutter => source.Unpulled ∧ cutter = {}
  | chain _ stages => UnpulledAll stages
  | curried _ _ args => UnpulledAll args
  | suspended _ _ args task => UnpulledAll args ∧ task.Unbegun
  | defined _ _ value => value.Unpulled
  | metered _ | output _ => False

def UnpulledOption : Option Value → Prop
  | none => False
  | some value => value.Unpulled

def UnpulledAll : List Value → Prop
  | [] => True
  | value :: rest => value.Unpulled ∧ UnpulledAll rest

end

theorem unpulledAll_iff : UnpulledAll values ↔ ∀ value ∈ values, value.Unpulled := by
  induction values with
  | nil => simp [UnpulledAll]
  | cons value rest ih => simp [UnpulledAll, ih]

theorem UnpulledAll.getElem? (h : UnpulledAll values) {value : Value} (hvalue : values[k]? = some value) :
    value.Unpulled :=
  unpulledAll_iff.1 h value (List.mem_of_getElem? hvalue)

theorem UnpulledAll.append {more : List Value} (h : UnpulledAll values) (hmore : UnpulledAll more) :
    UnpulledAll (values ++ more) := by
  simp only [unpulledAll_iff, List.mem_append] at *
  rintro value (hvalue | hvalue)
  · exact h value hvalue
  · exact hmore value hvalue

mutual

theorem Unpulled.copy : {value : Value} → value.Unpulled → value.copy.Unpulled
  | number _, _ => trivial
  | text .., _ => rfl
  | chunks .., _ => rfl
  | input .., h => h
  | numberText .., h => ⟨h.1.copyOption, by rw [h.2]⟩
  | listText .., h => ⟨h.1.copy, rfl, rfl⟩
  | list .., h => ⟨h.1.copyAll, rfl⟩
  | recast .., h => ⟨h.1.copy, rfl⟩
  | clusters .., h => ⟨h.1.copy, rfl⟩
  | chain .., h => UnpulledAll.copyAll h
  | curried .., h => UnpulledAll.copyAll h
  | suspended .., h => ⟨h.1.copyAll, h.2.restarted⟩
  | defined _ _ value, h => (show value.Unpulled from h).copy

theorem UnpulledOption.copyOption :
    {value : Option Value} → UnpulledOption value → UnpulledOption (copyOption value)
  | some _, h => Unpulled.copy h

theorem UnpulledAll.copyAll : {values : List Value} → UnpulledAll values → UnpulledAll (copyAll values)
  | [], _ => trivial
  | _ :: _, h => ⟨h.1.copy, h.2.copyAll⟩

end

theorem Unpulled.recastTo {value : Value} (h : value.Unpulled) (wanted : Ty) : (value.recastTo wanted).Unpulled := by
  unfold Value.recastTo
  dsimp only
  split
  · exact h
  · exact ⟨h, rfl⟩

theorem Unpulled.ofNumber {value : Value} (h : value.Unpulled) : (Value.ofNumber value).Unpulled :=
  ⟨h, rfl⟩

theorem Unpulled.ofList {value : Value} (h : value.Unpulled) : (Value.ofList value).Unpulled :=
  ⟨h, rfl, rfl⟩

theorem Unpulled.clustersOf {value : Value} (h : value.Unpulled) : (Value.clustersOf value).Unpulled :=
  ⟨h, rfl⟩

theorem unpulled_textOf (bytes : Bytes) : (textOf bytes).Unpulled :=
  rfl

theorem unpulled_number (n : Float) : (number n).Unpulled :=
  trivial

end Value

abbrev Bound.Unpulled (b : Bound) : Prop :=
  Value.UnpulledAll b.args

open View

namespace View

variable {α β : Type} {viewer : Viewer} {P : α → Prop} {Q : β → Prop} {m : View α}

def Only (viewer : Viewer) (P : α → Prop) (m : View α) : Prop :=
  ∀ x, m.run viewer = some (.ok x) → P x

theorem Only.any (m : View α) : Only viewer (fun _ => True) m :=
  fun _ _ => trivial

theorem Only.fail : Only viewer P (View.fail error : View α) :=
  nofun

theorem Only.pure {x : α} (h : P x) : Only viewer P (Pure.pure x : View α) := by
  rintro y ⟨⟩
  exact h

theorem Only.bind {next : α → View β} (h : Only viewer P m) (hnext : ∀ x, P x → Only viewer Q (next x)) :
    Only viewer Q (m >>= next) := by
  intro y hy
  obtain ⟨x, hx, hy⟩ := run_bind_eq_ok_iff.1 hy
  exact hnext x (h x hx) y hy

theorem Only.after {next : α → View β} (h : ∀ x, Only viewer Q (next x)) : Only viewer Q (m >>= next) :=
  (Only.any m).bind fun x _ => h x

theorem Only.getOr {a : Option α} (h : ∀ x, a = some x → P x) : Only viewer P (View.getOr error a) := by
  cases a with
  | none => exact .fail
  | some x => exact .pure (h x rfl)

theorem Only.blaming (error : Error) (h : Only viewer P m) : Only viewer P (m.blaming error) :=
  fun x hx => h x (run_blaming_eq_ok_iff.1 hx)

theorem Only.arg {b : Bound} (hargs : b.Unpulled) (k : Nat) :
    Only viewer Value.Unpulled (View.arg b k) :=
  .getOr fun _ h => hargs.getElem? h

theorem Only.loop {body : β → View (β ⊕ α)} (I : β → Prop) (hbody : ∀ b, I b → Only viewer (Sum.elim I P) (body b))
    {b : β} (hb : I b) : Only viewer P (View.loop body b) := by
  suffices h : ∀ fuel b, I b → ∀ x, rounds body viewer fuel b = some (.ok x) → P x from h _ b hb
  intro fuel
  induction fuel with
  | zero => exact fun _ _ _ => nofun
  | succ fuel ih =>
    intro b hb x hx
    rw [rounds] at hx
    split at hx
    case h_1 b' hb' => exact ih b' (hbody b hb _ hb') x hx
    case h_2 y hy =>
      cases hx
      exact hbody b hb _ hy
    case h_3 => cases hx
    case h_4 => cases hx

end View

def ListView.Clean (viewer : Viewer) (l : ListView) : Prop :=
  ∀ k, Only viewer Value.Unpulled (l.item k)

namespace ListView.Clean

variable {viewer : Viewer} {l right : ListView}

theorem after {α : Type} {first : View α} {P : α → Prop} {list : α → ListView} (hfirst : Only viewer P first)
    (h : ∀ x, P x → (list x).Clean viewer) : (ListView.after first list).Clean viewer :=
  fun k => hfirst.bind fun x hx => h x hx k

theorem next (h : l.Clean viewer) (k : Nat) : Only viewer (fun item => ∀ x, item = some x → x.Unpulled) (l.next k) := by
  refine .after fun ended => ?_
  cases ended with
  | true => exact .pure nofun
  | false =>
    refine (h k).bind fun item hitem => .after fun _ => .pure ?_
    rintro _ ⟨⟩
    exact hitem

theorem ofItems {items : List Value} (h : Value.UnpulledAll items) : (ListView.ofItems items).Clean viewer := by
  refine fun k => .getOr fun x hx => ?_
  obtain ⟨item, hitem, rfl⟩ := Option.map_eq_some_iff.1 hx
  exact (h.getElem? hitem).copy

theorem endless {value : View Value} (h : Only viewer Value.Unpulled value) :
    (ListView.endless value).Clean viewer :=
  fun _ => h.bind fun _ hx => .pure hx.copy

section

variable (h : l.Clean viewer)
include h

theorem mapped {change : Nat → Value → View Value}
    (hchange : ∀ k x, x.Unpulled → Only viewer Value.Unpulled (change k x)) : (l.mapped change).Clean viewer :=
  fun k => (h k).bind (hchange k)

theorem zipped {combine : Value → Value → View Value} (hright : right.Clean viewer)
    (hcombine : ∀ x y, x.Unpulled → y.Unpulled → Only viewer Value.Unpulled (combine x y)) :
    (l.zipped right combine).Clean viewer :=
  fun k => (h k).bind fun x hx => (hright k).bind fun y hy => hcombine x y hx hy

theorem taken {limit : View Nat} : (l.taken limit).Clean viewer := by
  refine fun k => .after fun ended => ?_
  cases ended with
  | true => exact .fail
  | false => exact h k

theorem shifted {start : View Nat} : (l.shifted start).Clean viewer :=
  fun _ => .after fun _ => h _

theorem heldBack (k : Nat) :
    Only viewer (fun held => ∀ x, held.1 = some x → x.Unpulled) (l.heldBack k) := by
  cases k with
  | zero =>
    refine (h.next 0).bind fun first hfirst => ?_
    cases first with
    | none => exact .fail
    | some first => exact .pure hfirst
  | succ k =>
    refine .after fun held => (h.next held.2).bind fun item hitem => ?_
    cases item with
    | none => exact .pure nofun
    | some item => exact .pure hitem

theorem withoutLast : l.withoutLast.Clean viewer := by
  refine fun k => .after fun ended => ?_
  cases ended with
  | true => exact .fail
  | false =>
    refine (h.heldBack k).bind fun held hheld => .getOr fun x hx => ?_
    obtain ⟨item, hitem, rfl⟩ := Option.map_eq_some_iff.1 hx
    exact (hheld item hitem).copy

theorem gather : Only viewer Value.UnpulledAll l.gather := by
  refine .loop (fun state => Value.UnpulledAll state.2) ?_ (show Value.UnpulledAll [] from trivial)
  rintro ⟨k, items⟩ hitems
  refine (h.next k).bind fun item hitem => ?_
  cases item with
  | none => exact .pure hitems
  | some item => exact .pure ⟨hitem item rfl, hitems⟩

theorem last : Only viewer (fun item => ∀ x, item = some x → x.Unpulled) l.last := by
  refine .loop (fun state => ∀ x, state.2 = some x → x.Unpulled) ?_ nofun
  rintro ⟨k, item⟩ hitem
  refine (h.next k).bind fun next hnext => ?_
  cases next with
  | none => exact .pure hitem
  | some next => exact .pure hnext

end

theorem gathered {items : View (List Value)} (h : Only viewer Value.UnpulledAll items) :
    (ListView.gathered items).Clean viewer := by
  refine fun k => h.bind fun items hitems => .getOr fun x hx => ?_
  obtain ⟨item, hitem, rfl⟩ := Option.map_eq_some_iff.1 hx
  exact (hitems.getElem? hitem).copy

theorem fronts {front : Nat → View (Option α)} {item : α → Value} (h : ∀ x, (item x).Unpulled) :
    (ListView.fronts front item).Clean viewer := by
  refine fun k => .after fun x => .getOr fun y hy => ?_
  obtain ⟨x, -, rfl⟩ := Option.map_eq_some_iff.1 hy
  exact h x

theorem units (t : TextView) (unit : TextUnit) : (ListView.units t unit).Clean viewer := by
  refine fronts fun bytes => ?_
  cases unit with
  | grapheme => exact Value.unpulled_textOf bytes
  | codePoint =>
    unfold Cutter.item
    dsimp only
    split <;> exact Value.unpulled_number _

theorem bytes (t : TextView) : (ListView.bytes t).Clean viewer :=
  fronts fun _ => Value.unpulled_number _

theorem pieces (t : TextView) (separator : View Bytes) : (ListView.pieces t separator).Clean viewer :=
  fronts Value.unpulled_textOf

end ListView.Clean

def Query.Unpulled : Query → Prop
  | applied x => x.Unpulled
  | _ => True

def Query.ReplyUnpulled : (query : Query) → query.Reply → Prop
  | item _, x => x.Unpulled
  | applied _, x => x.Unpulled
  | taken, numeric => numeric.value.Unpulled
  | _, _ => True

def Viewer.Clean (viewer : Viewer) : Prop :=
  ∀ {value : Value} (query : Query), value.Unpulled → query.Unpulled →
    Only viewer query.ReplyUnpulled (View.ask value query)

section Asking

variable {viewer : Viewer} (h : viewer.Clean)
include h

theorem ListView.clean_of {value : Value} (hvalue : value.Unpulled) : (ListView.of value).Clean viewer :=
  fun _ => h (.item _) hvalue trivial

theorem ListView.clean_arg {b : Bound} (hargs : b.Unpulled) (k : Nat) :
    (ListView.arg b k).Clean viewer :=
  .after (.arg hargs k) fun _ hvalue => ListView.clean_of h hvalue

namespace View.Only

variable {x : Value} {b : Bound}

theorem applied (hf : f.Unpulled) (hx : x.Unpulled) : Only viewer Value.Unpulled (View.ask f (.applied x)) :=
  h (.applied x) hf hx

theorem coerced {value : Value} (hvalue : value.Unpulled) (target : Ty) :
    Only viewer Value.Unpulled (View.coerced value target) := by
  unfold View.coerced
  split
  case h_5 => exact .pure hvalue.ofNumber
  case h_6 => exact (Only.blaming _ (h .taken hvalue trivial)).bind fun _ hnumber => .pure hnumber
  case h_7 => exact .pure (hvalue.recastTo _)
  case h_8 => exact .pure hvalue.ofList
  case h_9 => exact .pure (hvalue.clustersOf.recastTo _)
  case h_10 => exact .fail
  all_goals exact .pure hvalue

theorem applyArg (hargs : b.Unpulled) (k : Nat) (hx : x.Unpulled) :
    Only viewer Value.Unpulled (View.applyArg b k x) :=
  (Only.arg hargs k).bind fun _ hf => .after fun _ => applied h hf hx

theorem chosen (hargs : b.Unpulled) (choice : Choice) : Only viewer Value.Unpulled (choice.chosen b) := by
  cases choice with
  | head =>
    refine (Only.arg hargs 0).bind fun list hlist => .after fun ended => ?_
    cases ended with
    | true => exact .fail
    | false => exact ListView.clean_of h hlist 0
  | last =>
    refine (Only.arg hargs 0).bind fun list hlist => .after fun _ => ?_
    exact (ListView.clean_of h hlist).last.bind fun item hitem => .getOr hitem
  | index =>
    refine .after fun n => ?_
    dsimp only
    split
    · exact .fail
    · refine (Only.arg hargs 0).bind fun list hlist => .after fun _ => .after fun k => .after fun ended => ?_
      cases ended with
      | true => exact .fail
      | false => exact ListView.clean_of h hlist k

theorem choice (hargs : b.Unpulled) (choice : Choice) : Only viewer Value.Unpulled (choice.view b) := by
  refine (chosen h ?_ choice).bind fun item hitem => coerced h hitem _
  split
  · exact hargs.copyAll
  · exact hargs

omit h in
theorem given (hargs : b.Unpulled) (k : Nat) (how : Handing) :
    Only viewer Value.Unpulled (View.given b k how) := by
  cases how with
  | itself => exact .arg hargs k
  | copy => exact (Only.arg hargs k).bind fun _ hvalue => .pure hvalue.copy
  | number => exact .after fun n => .pure (Value.unpulled_number n)
  | text => exact .after fun bytes => .pure (Value.unpulled_textOf bytes)
  | list | function => exact (Only.arg hargs k).bind fun _ hvalue => .after fun _ => .pure hvalue.copy
  | description => exact .pure (Value.unpulled_textOf _)

omit h in
theorem finished (hargs : b.Unpulled) : Only viewer Value.Unpulled (View.finished builtin b) := by
  unfold View.finished
  split
  case h_1 => exact given hargs _ _
  case h_2 task htask => exact .pure ⟨hargs, Job.unbegun_start htask⟩

theorem curriedApplied (ty : Ty) {args : List Value} (hargs : Value.UnpulledAll args) (hx : x.Unpulled) :
    Only viewer Value.Unpulled (View.curriedApplied builtin ty args x) := by
  unfold View.curriedApplied
  split
  · refine (coerced h hx _).bind fun y hy => ?_
    have hall : Value.UnpulledAll (Value.copyAll args ++ [y]) := hargs.copyAll.append ⟨hy, trivial⟩
    dsimp only
    split
    · exact .pure hall
    · exact finished hall
  · exact .fail

theorem through {stages : List Value} (hstages : Value.UnpulledAll stages) (hx : x.Unpulled) :
    Only viewer Value.Unpulled (View.through stages x) := by
  induction stages generalizing x with
  | nil => exact .pure hx
  | cons stage rest ih => exact (applied h hstages.1 hx).bind fun y hy => ih hstages.2 hy

theorem appliedTo {f : Value} (hf : f.Unpulled) (hx : x.Unpulled) :
    Only viewer Value.Unpulled (View.appliedTo x f) := by
  unfold View.appliedTo
  split
  case h_1 => exact through h hf hx
  case h_2 => exact curriedApplied h _ hf hx
  case h_3 => exact applied h hf hx
  case h_4 => exact (Only.arg hf.1 0).bind fun _ hvalue => .pure hvalue.copy
  case h_5 =>
    exact (Only.arg hf.1 1).bind fun _ hsecond =>
      (applyArg h hf.1 0 hx).bind fun _ hhalf => applied h hhalf hsecond.copy
  case h_6 => exact (choice h hf.1 _).bind fun _ hitem => applied h hitem hx
  case h_7 => exact .fail

theorem takenFrom {value : Value} (hvalue : value.Unpulled) :
    Only viewer (Query.ReplyUnpulled .taken) (View.takenFrom value) := by
  unfold View.takenFrom
  split
  case h_1 source _ =>
    refine .getOr fun number hnumber => ?_
    obtain ⟨source, rfl, hsource⟩ := Option.bind_eq_some_iff.1 hnumber
    have heq : number.value = source := by
      unfold Value.asNumeric? at hsource
      split at hsource <;> cases hsource
      rfl
    change number.value.Unpulled
    rw [heq]
    exact hvalue.1
  case h_2 => exact h .taken hvalue trivial
  case h_3 => exact (choice h hvalue.1 _).bind fun _ hitem => h .taken hitem trivial
  case h_4 => exact .fail

end View.Only

theorem ListView.clean_ofValue {value : Value} (hvalue : value.Unpulled) : (ListView.ofValue value).Clean viewer := by
  unfold ListView.ofValue
  split
  case h_1 => exact .ofItems hvalue.1
  case h_2 =>
    refine .mapped (ListView.clean_of h hvalue.1) fun k x hx => ?_
    split
    · exact .coerced h hx _
    · exact .pure hx
  case h_3 => exact .units _ _
  case h_4 => exact ListView.clean_of h hvalue
  case h_5 => exact .bytes _
  case h_6 => exact .units _ _
  case h_7 => exact .pieces _ _
  case h_8 => exact .mapped (ListView.clean_arg h hvalue.1 1) fun _ _ hx => .applyArg h hvalue.1 0 hx
  case h_9 => exact .endless (.arg hvalue.1 0)
  case h_10 =>
    exact .zipped (ListView.clean_arg h hvalue.1 1) (ListView.clean_arg h hvalue.1 2) fun _ _ hx hy =>
      (Only.applyArg h hvalue.1 0 hx).bind fun _ hhalf => .applied h hhalf hy
  case h_11 => exact .taken (ListView.clean_arg h hvalue.1 1)
  case h_12 => exact .shifted (ListView.clean_arg h hvalue.1 1)
  case h_13 => exact .shifted (ListView.clean_arg h hvalue.1 0)
  case h_14 => exact .withoutLast (ListView.clean_arg h hvalue.1 0)
  case h_15 =>
    exact .gathered ((Only.arg hvalue.1 0).bind fun _ hlist => .after fun _ =>
      (ListView.clean_of h hlist).gather)
  case h_16 => exact .after (.choice h hvalue.1 _) fun _ hitem => ListView.clean_of h hitem
  case h_17 => exact .after (P := fun _ => False) .fail fun _ hnone => hnone.elim

end Asking

theorem viewer_clean (feed : Feed) (n : Nat) : (viewer feed n).Clean := by
  induction n with
  | zero => exact fun _ _ _ => nofun
  | succ n ih =>
    intro value query hvalue hquery
    suffices h : Only (viewer feed n) query.ReplyUnpulled (glance feed value query) from h
    refine .after fun _ => ?_
    cases query with
    | item k => exact ListView.clean_ofValue ih hvalue k
    | taken => exact .takenFrom ih hvalue
    | applied x => exact .appliedTo ih hvalue hquery
    | number => exact .any _
    | textEnded i => exact .any _
    | chunk i => exact .any _
    | whole => exact .any _
    | listEnded k => exact .any _
    | step k => exact .any _

namespace View.Gives

variable {feed : Feed} {value x : Value}

theorem item_unpulled (hvalue : value.Unpulled) (h : ((ListView.of value).item k).Gives feed x) : x.Unpulled :=
  h.elim fun n hn => viewer_clean feed n (.item k) hvalue trivial x hn

theorem applied_unpulled (hf : f.Unpulled) (hvalue : value.Unpulled) (h : (ask f (.applied value)).Gives feed x) :
    x.Unpulled :=
  h.elim fun n hn => viewer_clean feed n (.applied value) hf hvalue x hn

theorem applyArg_unpulled {b : Bound} (hargs : b.Unpulled) (hvalue : value.Unpulled)
    (h : (applyArg b k value).Gives feed x) : x.Unpulled :=
  h.elim fun n hn => Only.applyArg (viewer_clean feed n) hargs k hvalue x hn

theorem coerced_unpulled (hvalue : value.Unpulled) {target : Ty} (h : (coerced value target).Gives feed x) :
    x.Unpulled :=
  h.elim fun n hn => Only.coerced (viewer_clean feed n) hvalue target x hn

theorem chosen_unpulled {b : Bound} (hargs : b.Unpulled) {choice : Choice}
    (h : (choice.chosen b).Gives feed x) : x.Unpulled :=
  h.elim fun n hn => Only.chosen (viewer_clean feed n) hargs choice x hn

theorem choice_unpulled {b : Bound} (hargs : b.Unpulled) {choice : Choice}
    (h : (choice.view b).Gives feed x) : x.Unpulled :=
  h.elim fun n hn => Only.choice (viewer_clean feed n) hargs choice x hn

end View.Gives

end PullScript
