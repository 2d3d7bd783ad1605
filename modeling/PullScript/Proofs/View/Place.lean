import PullScript.Proofs.Value.Copy
import PullScript.Proofs.View.Over
import PullScript.Proofs.View.Reading
import PullScript.Proofs.View.Unpulled

namespace PullScript

open View

variable (feed : Feed)

def Once.At (bytes : View Bytes) (i : Nat) (once : Once) : Prop :=
  (once.served = false ∧ i = 0 ∨ once.served = true ∧ i = 1) ∧
    ∀ known, once.known = some known → bytes.Gives feed known

/-- Units of a text that was streamed up to the place `i`: the unit at the place `k` is still to be
cut, or it is in front, or there is none. -/
def Cutter.At (t : TextView) (unit : TextUnit) (k i : Nat) (cutter : Cutter) : Prop :=
  ∃ soFar start, t.Runs feed 0 i soFar ∧ (t.unitStart unit k).Gives feed start ∧
    ((cutter.current = none ∧ cutter.done = false ∧ start ≤ soFar.length ∧
        cutter.pending = soFar.drop start) ∨
      (∃ bytes, cutter.current = some bytes ∧ cutter.done = false ∧
        (t.unitFrom unit start).Gives feed (some bytes) ∧ start + bytes.length ≤ soFar.length ∧
        cutter.pending = soFar.drop (start + bytes.length)) ∨
      (cutter.current = none ∧ cutter.done = true ∧ (t.unitFrom unit start).Gives feed none))

def ByteList.At (t : TextView) (k i : Nat) (ahead : Bytes) : Prop :=
  ∃ soFar, t.Runs feed 0 i soFar ∧ ahead = soFar.drop k ∧
    (k ≤ soFar.length ∨ (t.ended i).Gives feed true)

/-- Pieces of a text that was streamed up to the place `i`, between separators that are known: the
piece at the place `k` is still to be cut, or it is in front, or there is none. -/
def Splitter.CutAt (t : TextView) (separator : Bytes) (k i : Nat) (splitter : Splitter) : Prop :=
  ∃ soFar, t.Runs feed 0 i soFar ∧
    ((∃ start, splitter.current = none ∧ splitter.done = false ∧
        (t.pieceStart separator k).Gives feed (some start) ∧ start ≤ soFar.length ∧
        splitter.pending = soFar.drop start) ∨
      (∃ start piece next, splitter.current = some piece ∧ splitter.done = next.isNone ∧
        (t.pieceStart separator k).Gives feed (some start) ∧
        (t.pieceFrom separator start).Gives feed (piece, next) ∧
        ∀ start', next = some start' → start' ≤ soFar.length ∧ splitter.pending = soFar.drop start') ∨
      (splitter.current = none ∧ splitter.done = true ∧ (t.pieceStart separator k).Gives feed none))

/-- Pieces of a text. Nothing is done before the separator is known, and an empty separator cuts off
empty pieces. -/
def Splitter.At (t : TextView) (separator : View Bytes) (k i : Nat) (splitter : Splitter) : Prop :=
  match splitter.separator with
  | none => splitter = {} ∧ k = 0 ∧ i = 0
  | some known => separator.Gives feed known ∧
    if known.isEmpty then splitter.done = false ∧ ∀ piece, splitter.current = some piece → piece = []
    else splitter.CutAt feed t known k i

inductive ConcatPlace.Skips (b : Bound) : ConcatPlace → ConcatPlace → Prop
  | refl (place : ConcatPlace) : Skips b place place
  | step {k : Nat} {rest : List Nat} {places : Nat → Nat} {place : ConcatPlace} :
    ((TextView.arg b k).ended (places k)).Gives feed true → Skips b ⟨rest, places⟩ place →
    Skips b ⟨k :: rest, places⟩ place

/-- The arguments of texts one after the other, and those of them that are left. -/
def Concat.At (b : Bound) (order : List Nat) (places : Nat → Nat) (i : Nat) (rest : List Nat) : Prop :=
  ∃ place, (TextView.placeAfter ⟨order, fun _ => 0⟩ (ConcatPlace.next b) i).Gives feed place ∧
    ConcatPlace.Skips feed b place ⟨rest, places⟩

/-- A joiner at a place, the item that was begun being `text` at the place `p`. An item that has ended
may have been dropped. -/
structure Joiner.At (separator : Bytes) (place : JoinPlace) (text : Value) (p : Nat)
    (joiner : Joiner Value) : Prop where
  separator_eq : joiner.separator = separator
  started_eq : joiner.started = decide (0 < place.index)
  busy : joiner.item.isSome → place.item = some (text, p)
  idle : joiner.item = none → place.goesOn.Gives feed false

/-- All items of a list but the last. When no item is held back any more, the list is over. -/
def Init.At (seen : Reach) (b : Bound) (args' : List Value) (places : Nat → Nat) (k : Nat) (state : Init Value) : Prop :=
  (∀ i ≠ 0, places i = 0) ∧
    if state.started then
      ((ListView.arg b 0).heldBack k).Gives feed (state.held, places 0) ∧
        (state.held = none → ∃ arg, args'[0]? = some arg ∧ arg.Over feed seen)
    else k = 0 ∧ places 0 = 0

/-- Work at the place `k`, its arguments being at `places`. Of arguments that are only ever copied, copies are
the same. -/
def Task.At (seen : Reach) (b : Bound) (args' : List Value) (places : Nat → Nat) (k : Nat) :
    Task Value → Task Value → Prop
  | .calculate c _, .calculate c' known =>
    c' = c ∧ k = 0 ∧ (known = none → ∀ i, places i = 0) ∧ ∀ x, known = some x → (c.view b).Gives feed x
  | .render r _, .render r' once =>
    r' = r ∧ once.At feed (r.view b) k ∧ (once.known = none → ∀ i, places i = 0)
  | .encode e, .encode e' => e' = e ∧ places 0 = k
  | .concat state, .concat state' =>
    state'.order = state.order ∧ Concat.At feed b state.order places k state'.rest
  | .join _, .join none => k = 0 ∧ ∀ i, places i = 0
  | .bytes _, .bytes ahead => ByteList.At feed (.arg b 0) k (places 0) ahead
  | .units unit _, .units unit' cutter => unit' = unit ∧ cutter.At feed (.arg b 0) unit k (places 0)
  | .split _, .split splitter =>
    (splitter.separator = none → places 0 = 0) ∧
      splitter.At feed (.arg b 1) (argBytes b 0) k (places 1)
  | .map, .map => places 0 = 0 ∧ places 1 = k
  | .repeat, .repeat => Value.copyAll args' = Value.copyAll b.args
  | .zipWith, .zipWith => places 0 = 0 ∧ places 1 = k ∧ places 2 = k
  | .take _, .take state =>
    state.position = k ∧ places 1 = k ∧ (state.limit = none → places 0 = 0) ∧
      ∀ limit, state.limit = some limit → (argCount b 0).Gives feed limit
  | .drop _, .drop skipped =>
    (∀ i ≠ 1, places i = 0) ∧
      if skipped then ∃ start, (skipArg b).Gives feed start ∧ places 1 = start + k else k = 0 ∧ places 1 = 0
  | .tail _, .tail started =>
    (∀ i ≠ 0, places i = 0) ∧
      if started then ∃ start, (do (ListView.of (← arg b 0)).second).Gives feed start ∧ places 0 = start + k
      else k = 0 ∧ places 0 = 0
  | .init _, .init state => state.At feed seen b args' places k
  | .reverse _, .reverse state =>
    state.position = k ∧ (state.items = none → places 0 = 0) ∧
      ∀ items, state.items = some items → (gatherArg b).Gives feed items
  | .pick choice _, .pick choice' none =>
    choice' = choice ∧ k = 0 ∧ (∀ i, places i = 0) ∧ (b.ty.kind = .arrow → Value.copyAll args' = Value.copyAll b.args)
  | .const, .const => k = 0 ∧ Value.copyAll args' = Value.copyAll b.args
  | .flip, .flip => k = 0 ∧ places 0 = 0 ∧ args'[1]?.map Value.copy = b.args[1]?.map Value.copy
  | _, _ => False

/-- The items of a list are coerced to the types that are meant for the place `k` when so many items have been
counted. Where there is only one type, it is meant for all of them. -/
def Recast.InStep (ty : Ty) (k position : Nat) : Prop :=
  ty.elements.length ≤ 1 ∨ position = k

/-- The value that is left of a value when it has been pulled to a place, at least `seen` bytes having
been read from each tap. -/
inductive Value.At (seen : Reach) : Value → Nat → Value → Prop
  | number (n : Float) : At seen (.number n) 0 (.number n)
  | text (bytes : Bytes) (read : Bool) : At seen (.text bytes false) read.toNat (.text bytes read)
  | chunks (parts : List Bytes) {i : Nat} : i ≤ parts.length →
    At seen (.chunks parts 0) i (.chunks parts i)
  | input (tap : Nat) (primary primary' : Bool) {i : Nat} : i ≤ seen tap →
    At seen (.input tap 0 primary) i (.input tap i primary')
  | numberText {source source' : Value} {once : Once} {i : Nat} :
    once.At feed (return Bytes.ofString (Number.toText (← ask source .number))) i →
    (once.known = none → At seen source 0 source') →
    At seen (.numberText (some source) {}) i (.numberText (some source') once)
  | listText {source source' text : Value} {separator : Bytes} {joiner : Joiner Value} {place : JoinPlace}
    {i p : Nat} :
    (TextView.placeAfter ⟨none, 0⟩ (JoinPlace.next (.of source) separator) i).Gives feed place →
    At seen source place.index source' → (∀ item, joiner.item = some item → At seen text p item) →
    joiner.At feed separator place text p →
    At seen (.listText source ⟨separator, none, false⟩) i (.listText source' joiner)
  | list (elements : List Ty) {items items' : List Value} (k : Nat) : copyAll items' = copyAll items →
    At seen (.list elements items 0) k (.list elements items' (min k items.length))
  | recast {ty : Ty} {source source' : Value} {k position : Nat} : At seen source k source' →
    Recast.InStep ty k position → At seen (.recast ty source 0) k (.recast ty source' position)
  | clusters {source source' : Value} {cutter : Cutter} {i k : Nat} : At seen source i source' →
    cutter.At feed (.of source) .grapheme k i →
    At seen (.clusters source {}) k (.clusters source' cutter)
  | chain {ty : Ty} {stages stages' : List Value} : stages'.length = stages.length →
    (∀ (i : Nat) (stage stage' : Value), stages[i]? = some stage → stages'[i]? = some stage' → At seen stage 0 stage') →
    At seen (.chain ty stages) 0 (.chain ty stages')
  | curried (builtin : Builtin) (ty : Ty) {args args' : List Value} : copyAll args' = copyAll args →
    At seen (.curried builtin ty args) 0 (.curried builtin ty args')
  | suspended {name : String} {ty : Ty} {args args' : List Value} {places : Nat → Nat}
    {task task' : Task Value} {k : Nat} : args'.length = args.length →
    (∀ (i : Nat) (a a' : Value), args[i]? = some a → args'[i]? = some a' → At seen a (places i) a') →
    Task.At feed seen ⟨name, ty, args⟩ args' places k task task' →
    At seen (.suspended name ty args task) k (.suspended name ty args' task')
  | picked {name : String} {ty : Ty} {args args' : List Value} {places : Nat → Nat} {choice : Choice}
    {item item' : Value} {k : Nat} : args'.length = args.length →
    (∀ (i : Nat) (a a' : Value), args[i]? = some a → args'[i]? = some a' → At seen a (places i) a') →
    (ty.kind = .arrow → copyAll args' = copyAll args) → (choice.view ⟨name, ty, args⟩).Gives feed item →
    At seen item k item' →
    At seen (.suspended name ty args (.pick choice none)) k
      (.suspended name ty args' (.pick choice (some item')))
  | joining {name : String} {ty : Ty} {args args' : List Value} {places : Nat → Nat} {source text : Value}
    {separator : Bytes} {joiner : Joiner Value} {place : JoinPlace} {i p : Nat} :
    args'.length = args.length →
    (∀ (i : Nat) (a a' : Value), args[i]? = some a → args'[i]? = some a' → At seen a (places i) a') →
    args[1]? = some source → (argBytes ⟨name, ty, args⟩ 0).Gives feed separator →
    (TextView.placeAfter ⟨none, 0⟩ (JoinPlace.next (.of source) separator) i).Gives feed place →
    places 1 = place.index → (∀ item, joiner.item = some item → At seen text p item) →
    joiner.At feed separator place text p →
    At seen (.suspended name ty args (.join none)) i (.suspended name ty args' (.join (some joiner)))
  | defined {name doc : String} {value value' : Value} {k : Nat} : At seen value k value' →
    At seen (.defined name doc value) k (.defined name doc value')

variable {feed} {seen seen' : Reach}

section Task

variable {b : Bound} {args' : List Value} {places : Nat → Nat} {k : Nat} {task task' : Task Value}

theorem Task.At.kind_eq (h : Task.At feed seen b args' places k task task') :
    task'.kind b.ty = task.kind b.ty := by
  unfold Task.At at h
  split at h <;> first | rfl | exact h.elim

theorem Init.At.mono {state : Init Value} (h : state.At feed seen b args' places k) (hseen : Further seen seen') :
    state.At feed seen' b args' places k := by
  obtain ⟨held, started⟩ := state
  cases started with
  | true =>
    refine ⟨h.1, h.2.1, fun hheld => ?_⟩
    obtain ⟨arg, harg, hover⟩ := h.2.2 hheld
    exact ⟨arg, harg, hover.mono hseen⟩
  | false => exact h

theorem Task.At.mono (h : Task.At feed seen b args' places k task task') (hseen : Further seen seen') :
    Task.At feed seen' b args' places k task task' := by
  unfold Task.At at h ⊢
  split at h <;> first | exact h | exact h.mono hseen

end Task

namespace Value

theorem At.mono {value value' : Value} {k : Nat} (h : At feed seen value k value') (hseen : Further seen seen') :
    At feed seen' value k value' := by
  induction h with
  | number n => exact .number n
  | text bytes read => exact .text bytes read
  | chunks parts hi => exact .chunks parts hi
  | input tap primary primary' hi => exact .input tap primary primary' (Nat.le_trans hi (hseen tap))
  | numberText honce _ ih => exact .numberText honce ih
  | listText hplace _ _ hjoiner ihsource ihitem => exact .listText hplace ihsource ihitem hjoiner
  | list elements k hitems => exact .list elements k hitems
  | recast _ hstep ih => exact .recast ih hstep
  | clusters _ hcutter ih => exact .clusters ih hcutter
  | chain hlength _ ih => exact .chain hlength ih
  | curried builtin ty hargs => exact .curried builtin ty hargs
  | suspended hlength _ htask ih => exact .suspended hlength ih (htask.mono hseen)
  | picked hlength _ harrow hitem _ ihargs ihitem => exact .picked hlength ihargs harrow hitem ihitem
  | joining hlength _ hsource hseparator hplace hindex _ hjoiner ihargs ihitem =>
    exact .joining hlength ihargs hsource hseparator hplace hindex ihitem hjoiner
  | defined _ ih => exact .defined ih

theorem At.kind_eq {value value' : Value} {k : Nat} (h : At feed seen value k value') :
    value'.kind = value.kind := by
  induction h with
  | suspended _ _ htask _ => exact htask.kind_eq
  | defined _ ih => exact ih
  | _ => rfl

theorem At.ty_eq {value value' : Value} {k : Nat} (h : At feed seen value k value') : value'.ty = value.ty := by
  induction h with
  | defined _ ih => exact ih
  | listText _ _ _ _ ihsource _ => simp only [ty, ihsource]
  | clusters _ _ ih => simp only [ty, ih]
  | _ => rfl

end Value

theorem Joiner.At.start (separator : Bytes) (text : Value) :
    Joiner.At feed separator ⟨none, 0⟩ text 0 ⟨separator, none, false⟩ :=
  ⟨rfl, rfl, nofun, fun _ => .pure _⟩

theorem Task.Unbegun.at_start {task : Task Value} (h : task.Unbegun) {b : Bound} {args' : List Value}
    (hargs : Value.copyAll args' = Value.copyAll b.args) : Task.At feed seen b args' (fun _ => 0) 0 task task := by
  cases task with
  | calculate c known =>
    subst h
    exact ⟨rfl, rfl, fun _ _ => rfl, nofun⟩
  | render r once =>
    subst h
    exact ⟨rfl, ⟨.inl ⟨rfl, rfl⟩, nofun⟩, fun _ _ => rfl⟩
  | encode e => exact ⟨rfl, rfl⟩
  | concat state =>
    refine ⟨rfl, _, .pure _, ?_⟩
    rw [show state.rest = state.order from h]
    exact .refl _
  | join joiner =>
    subst h
    exact ⟨rfl, fun _ => rfl⟩
  | bytes ahead =>
    subst h
    exact ⟨[], .refl 0, rfl, .inl (Nat.le_refl 0)⟩
  | units unit cutter =>
    subst h
    exact ⟨rfl, [], 0, .refl 0, .pure _, .inl ⟨rfl, rfl, Nat.le_refl 0, rfl⟩⟩
  | split splitter =>
    subst h
    exact ⟨fun _ => rfl, rfl, rfl, rfl⟩
  | map => exact ⟨rfl, rfl⟩
  | «repeat» => exact hargs
  | zipWith => exact ⟨rfl, rfl, rfl⟩
  | take state =>
    subst h
    exact ⟨rfl, rfl, fun _ => rfl, nofun⟩
  | drop skipped =>
    subst h
    exact ⟨fun _ _ => rfl, rfl, rfl⟩
  | tail started =>
    subst h
    exact ⟨fun _ _ => rfl, rfl, rfl⟩
  | init state =>
    subst h
    exact ⟨fun _ _ => rfl, rfl, rfl⟩
  | reverse state =>
    subst h
    exact ⟨rfl, fun _ => rfl, nofun⟩
  | pick choice item =>
    subst h
    exact ⟨rfl, rfl, fun _ => rfl, fun _ => hargs⟩
  | const => exact ⟨rfl, hargs⟩
  | flip => exact ⟨rfl, rfl, Value.map_copy_of_copyAll_eq hargs 1⟩

theorem Task.Unbegun.restarted_eq {task : Task Value} (h : task.Unbegun) : task.restarted = task := by
  cases task with
  | concat state =>
    obtain ⟨order, rest⟩ := state
    obtain rfl : rest = order := h
    rfl
  | _ => simp_all [Task.Unbegun, Task.restarted]

namespace Value

mutual

theorem Unpulled.at_both : {value : Value} → value.Unpulled →
    At feed seen value 0 value ∧ At feed seen value 0 value.copy
  | .number n, _ => ⟨.number n, .number n⟩
  | .text bytes _, h => by
    obtain rfl := h
    exact ⟨.text bytes false, .text bytes false⟩
  | .chunks parts _, h => by
    obtain rfl := h
    exact ⟨.chunks parts (Nat.zero_le _), .chunks parts (Nat.zero_le _)⟩
  | .input tap _ primary, h => by
    obtain rfl := h
    exact ⟨.input tap primary primary (Nat.zero_le _), .input tap primary false (Nat.zero_le _)⟩
  | .numberText (some source) _, h => by
    obtain ⟨hsource, rfl⟩ := h
    exact (show source.Unpulled from hsource).at_both.imp
      (fun h => .numberText ⟨.inl ⟨rfl, rfl⟩, nofun⟩ fun _ => h) fun h => .numberText ⟨.inl ⟨rfl, rfl⟩, nofun⟩ fun _ => h
  | .listText source ⟨separator, _, _⟩, h => by
    obtain ⟨hsource, rfl, rfl⟩ := h
    exact hsource.at_both.imp (.listText (.pure _) · nofun (.start separator source))
      (.listText (.pure _) · nofun (.start separator source))
  | .list elements items _, h => by
    obtain ⟨-, rfl⟩ := h
    have hlist {items' : List Value} (hitems : copyAll items' = copyAll items) :
        At feed seen (.list elements items 0) 0 (.list elements items' (min 0 items.length)) := .list elements 0 hitems
    rw [Nat.zero_min] at hlist
    exact ⟨hlist rfl, hlist (copyAll_copyAll items)⟩
  | .recast _ _ _, h => by
    obtain ⟨hsource, rfl⟩ := h
    exact hsource.at_both.imp (.recast · (.inr rfl)) (.recast · (.inr rfl))
  | .clusters source _, h => by
    obtain ⟨hsource, rfl⟩ := h
    have hcutter : Cutter.At feed (.of source) .grapheme 0 0 {} :=
      ⟨[], 0, .refl 0, .pure _, .inl ⟨rfl, rfl, Nat.le_refl 0, rfl⟩⟩
    exact hsource.at_both.imp (.clusters · hcutter) (.clusters · hcutter)
  | .chain _ stages, h =>
    (show UnpulledAll stages from h).at_both.imp (.chain rfl) (.chain (length_copyAll stages))
  | .curried builtin ty args, _ => ⟨.curried builtin ty rfl, .curried builtin ty (copyAll_copyAll args)⟩
  | .suspended name ty args task, h => by
    rw [copy, h.2.restarted_eq]
    exact (show UnpulledAll args from h.1).at_both.imp (.suspended rfl · (h.2.at_start rfl))
      (.suspended (length_copyAll args) · (h.2.at_start (copyAll_copyAll args)))
  | .defined _ _ value, h => (show value.Unpulled from h).at_both.imp .defined .defined

theorem UnpulledAll.at_both : {values : List Value} → UnpulledAll values →
    (∀ (i : Nat) (a a' : Value), values[i]? = some a → values[i]? = some a' → At feed seen a 0 a') ∧
      ∀ (i : Nat) (a a' : Value), values[i]? = some a → (copyAll values)[i]? = some a' → At feed seen a 0 a'
  | [], _ => ⟨nofun, nofun⟩
  | value :: rest, h => by
    have hvalue := (show value.Unpulled from h.1).at_both
    have hrest := (show UnpulledAll rest from h.2).at_both
    refine ⟨?_, ?_⟩ <;> rintro (_ | i) a a' ha ha'
    · cases ha
      cases ha'
      exact hvalue.1
    · exact hrest.1 i a a' ha ha'
    · cases ha
      cases ha'
      exact hvalue.2
    · exact hrest.2 i a a' ha ha'

end

theorem Unpulled.at_start {value : Value} (h : value.Unpulled) : At feed seen value 0 value :=
  h.at_both.1

theorem Unpulled.at_copy {value : Value} (h : value.Unpulled) : At feed seen value 0 value.copy :=
  h.at_both.2

theorem UnpulledAll.at_start {values : List Value} (h : UnpulledAll values) (i : Nat) (a a' : Value) :
    values[i]? = some a → values[i]? = some a' → At feed seen a 0 a' :=
  h.at_both.1 i a a'

end Value

end PullScript
