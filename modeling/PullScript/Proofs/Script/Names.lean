import PullScript.Proofs.Script.Meaning
import PullScript.Proofs.Script.Values

namespace PullScript

open Act

namespace Scope

variable {name : String} {scope : Scope} {entries : List (String × Value)} {value : Value}

def extend (scope : Scope) (entries : List (String × Value)) : Scope :=
  { scope with user := entries.foldl (fun user entry => insert entry.1 entry.2 user) scope.user }

/-- What is added to the table when a name is defined: nothing, if it is known. -/
def newEntry (scope : Scope) (name : String) (value : Value) : List (String × Value) :=
  if (scope.lookup? name).isSome then [] else [(name, value)]

structure Admits (scope : Scope) (entries : List (String × Value)) : Prop where
  unknown : ∀ entry ∈ entries, scope.lookup? entry.1 = none
  once : (entries.map (·.1)).Nodup

theorem extend_append (scope : Scope) (entries others : List (String × Value)) :
    scope.extend (entries ++ others) = (scope.extend entries).extend others := by
  simp only [extend, List.foldl_append]

theorem admits_nil (scope : Scope) : scope.Admits [] :=
  ⟨by simp, List.nodup_nil⟩

theorem lookup_insert_ne {other : String} (h : other ≠ name) (value : Value) :
    ∀ user : List (String × Value), (insert name value user).lookup other = user.lookup other
  | [] => by
    have hbeq : (other == name) = false := beq_eq_false_iff_ne.2 h
    simp [insert, List.lookup_cons, hbeq]
  | (first, held) :: rest => by
    have hbeq : (other == name) = false := beq_eq_false_iff_ne.2 h
    unfold insert
    split
    · simp [List.lookup_cons, hbeq]
    · simp only [List.lookup_cons, lookup_insert_ne h value rest]

theorem lookup_insert_self (value : Value) :
    ∀ {user : List (String × Value)}, name ∉ user.map (·.1) →
      (insert name value user).lookup name = some value
  | [], _ => by simp [insert]
  | (first, held) :: rest, h => by
    simp only [List.map_cons, List.mem_cons, not_or] at h
    obtain ⟨hfirst, hrest⟩ := h
    have hbeq : (name == first) = false := beq_eq_false_iff_ne.2 hfirst
    unfold insert
    split
    · simp
    · simp only [List.lookup_cons, hbeq]
      exact lookup_insert_self value hrest

theorem names_insert (name : String) (value : Value) :
    ∀ user : List (String × Value),
      ((insert name value user).map (·.1)).Perm (name :: user.map (·.1))
  | [] => .refl _
  | (first, held) :: rest => by
    unfold insert
    split
    · exact .refl _
    · exact ((names_insert name value rest).cons first).trans (.swap ..)

theorem lookup_eq_none_iff {user : List (String × Value)} : user.lookup name = none ↔ name ∉ user.map (·.1) := by
  rw [List.lookup_eq_none_iff, List.mem_map]
  constructor
  · rintro h ⟨entry, hentry, rfl⟩
    simpa using h entry hentry
  · intro h entry hentry
    exact bne_iff_ne.2 fun heq => h ⟨entry, hentry, heq.symm⟩

theorem lookup?_eq_none_iff :
    scope.lookup? name = none ↔ name ∉ scope.userNames ∧ scope.registry.find? name = none := by
  unfold lookup? lookupUser? Registry.lookup? userNames
  rw [← lookup_eq_none_iff]
  simp

theorem userNames_extend (scope : Scope) (entries : List (String × Value)) :
    (scope.extend entries).userNames.Perm (entries.map (·.1) ++ scope.userNames) := by
  induction entries generalizing scope with
  | nil => exact .refl _
  | cons entry entries ih =>
    obtain ⟨name, value⟩ := entry
    have hinsert := names_insert name value scope.user
    exact (ih { scope with user := insert name value scope.user }).trans
      ((hinsert.append_left _).trans List.perm_middle)

theorem lookup?_extend_eq_none_iff :
    (scope.extend entries).lookup? name = none ↔
      name ∉ entries.map (·.1) ∧ scope.lookup? name = none := by
  rw [lookup?_eq_none_iff, lookup?_eq_none_iff, (userNames_extend scope entries).mem_iff,
    List.mem_append, not_or, and_assoc]
  rfl

theorem Admits.append {others : List (String × Value)} (h : scope.Admits entries)
    (hothers : (scope.extend entries).Admits others) : scope.Admits (entries ++ others) := by
  have hnew : ∀ entry ∈ others, entry.1 ∉ entries.map (·.1) ∧ scope.lookup? entry.1 = none :=
    fun entry hentry => lookup?_extend_eq_none_iff.1 (hothers.unknown entry hentry)
  refine ⟨fun entry hentry => ?_, ?_⟩
  · obtain hentry | hentry := List.mem_append.1 hentry
    · exact h.unknown entry hentry
    · exact (hnew entry hentry).2
  · rw [List.map_append, List.nodup_append]
    refine ⟨h.once, hothers.once, ?_⟩
    rintro name hname _ hother rfl
    obtain ⟨entry, hentry, rfl⟩ := List.mem_map.1 hother
    exact (hnew entry hentry).1 hname

theorem Admits.lookup (hadmits : scope.Admits entries) (h : scope.user.lookup name = some value) :
    (scope.extend entries).user.lookup name = some value := by
  have hother : ∀ entry ∈ entries, name ≠ entry.1 := by
    rintro entry hentry rfl
    have hunknown := (lookup?_eq_none_iff.1 (hadmits.unknown entry hentry)).1
    rw [userNames, ← lookup_eq_none_iff, h] at hunknown
    cases hunknown
  clear hadmits
  induction entries generalizing scope with
  | nil => exact h
  | cons entry entries ih =>
    have hinsert := lookup_insert_ne (hother entry List.mem_cons_self) entry.2 scope.user
    exact @ih { scope with user := insert entry.1 entry.2 scope.user } (hinsert.trans h)
      fun entry hentry => hother entry (List.mem_cons_of_mem _ hentry)

theorem Admits.tail {entry : String × Value} (h : scope.Admits (entry :: entries)) :
    (scope.extend [entry]).Admits entries := by
  have honce := List.nodup_cons.1 h.once
  refine ⟨fun other hother => lookup?_extend_eq_none_iff.2 ⟨?_, ?_⟩, honce.2⟩
  · intro hmem
    rw [List.map_singleton, List.mem_singleton] at hmem
    exact honce.1 (List.mem_map.2 ⟨other, hother, hmem⟩)
  · exact h.unknown other (List.mem_cons_of_mem _ hother)

theorem lookup?_extend_ne {other : String} (h : other ≠ name) :
    (scope.extend [(name, value)]).lookup? other = scope.lookup? other := by
  have hinsert := lookup_insert_ne h value scope.user
  simp only [lookup?, lookupUser?, extend, List.foldl_cons, List.foldl_nil, hinsert]

theorem lookup?_extend_self (h : scope.lookup? name = none) :
    (scope.extend [(name, value)]).lookup? name = some value.copy := by
  have hinsert := lookup_insert_self value (lookup?_eq_none_iff.1 h).1
  simp only [lookup?, lookupUser?, extend, List.foldl_cons, List.foldl_nil, hinsert]
  rfl

theorem Admits.lookup_new (h : scope.Admits entries) : ∀ entry ∈ entries,
      (scope.extend entries).user.lookup entry.1 = some entry.2 := by
  induction entries generalizing scope with
  | nil => simp
  | cons first entries ih =>
    intro entry hentry
    obtain rfl | hentry := List.mem_cons.1 hentry
    · have hunknown := (lookup?_eq_none_iff.1 (h.unknown entry List.mem_cons_self)).1
      exact h.tail.lookup (lookup_insert_self entry.2 hunknown)
    · exact ih h.tail entry hentry

theorem define_eq_ok_iff {scope' : Scope} :
    scope.define name value = .ok scope' ↔
      scope.lookup? name = none ∧ scope' = scope.extend [(name, value)] := by
  unfold define
  split
  · next h =>
    have hknown : scope.lookup? name ≠ none := Option.isSome_iff_ne_none.1 h
    simp [hknown]
  · next h =>
    have hunknown : scope.lookup? name = none := by simpa using h
    simp only [hunknown, Except.ok.injEq, true_and]
    exact eq_comm

theorem newEntry_of_unknown (h : scope.lookup? name = none) : scope.newEntry name value = [(name, value)] := by
  simp [newEntry, h]

theorem newEntry_of_define_error {error : Error} (h : scope.define name value = .error error) :
    scope.newEntry name value = [] := by
  unfold define at h
  split at h
  · next hknown => simp [newEntry, hknown]
  · cases h

theorem admits_singleton (h : scope.lookup? name = none) (value : Value) : scope.Admits [(name, value)] :=
  ⟨by simpa using h, by simp⟩

end Scope

def Act.Result.state {σ α : Type} : Act.Result σ α → σ
  | .ok _ s => s.1
  | .error _ s => s.1

namespace Still

open Script

theorem lookupAt (name : String) (span : Span) : Still (lookupAt name span) := by
  intro scope
  refine .look ?_
  split
  · exact .pure rfl
  · exact .fail rfl

theorem applyTo (p : Puller) (f x : Value) : Still (applyTo p f x : Act Scope Value) :=
  (aside f (p.apply x)).bind fun y => pure y.1

theorem operatorAt (p : Puller) (op : Operator) (span : Span) : Still (operatorAt p op span) :=
  (lookupAt op.builtin span).bind fun f => (lookupAt "flip" span).bind fun flip => applyTo p flip f

theorem listOf (items : List Value) : Still (listOf items : Act Scope Value) :=
  (ofOption (Value.elementTypes? items)).bind fun _ => pure _

theorem flowNext (p : Puller) (element : Value) (flow : Script.Flow) :
    Still (flow.next p element : Act Scope Script.Flow) := by
  cases flow with
  | stages functions =>
    have hfunction : Still (asFunction element : Act Scope Value) :=
      (aside element (requireKind .fn)).bind fun x => pure x.2
    exact hfunction.bind fun f => pure (Flow.stages (functions ++ [f]))
  | value x => exact (applyTo p element x).bind fun y => pure (Flow.value y)

theorem flowResult (flow : Script.Flow) : Still (flow.result : Act Scope Value) := by
  unfold Flow.result
  split
  · exact pure _
  · exact ofExcept _
  · exact pure _

theorem state {act : Act Scope α} (h : Still act) (s : Setting) : Result.state (act s) = s.1 := by
  obtain ⟨scope, w⟩ := s
  have hact := h scope () w trivial
  cases hrun : act (scope, w) with
  | ok a s' =>
    rw [hrun] at hact
    exact hact.1
  | error stop s' =>
    rw [hrun] at hact
    exact (hact trivial).1

end Still

namespace Script

/-- From `s`, work defines the names of `entries` and no others. They are the first ones of `names`,
and all of them if the work gives an answer. -/
structure Records {α : Type} (names : List String) (act : Act Scope α) (s : Setting)
    (entries : List (String × Value)) : Prop where
  admits : s.1.Admits entries
  state : Result.state (act s) = s.1.extend entries
  met : entries.map (·.1) <+: names
  all : ∀ a s', act s = .ok a s' → entries.map (·.1) = names

def recordsAfter {α : Type} (result : Act.Result Scope α)
    (next : α → Setting → List (String × Value)) : List (String × Value) :=
  match result with
  | .ok a s => next a s
  | .error _ _ => []

namespace Records

variable {α β : Type} {names names' : List String} {act : Act Scope α} {s : Setting}
  {entries : List (String × Value)}

theorem of_still (h : Still act) (s : Setting) : Records [] act s [] :=
  ⟨s.1.admits_nil, h.state s, List.nil_prefix, fun _ _ _ => rfl⟩

theorem fail (error : Error) (s : Setting) : Records names (Act.fail error : Act Scope α) s [] :=
  ⟨s.1.admits_nil, rfl, List.nil_prefix, by rintro _ _ ⟨⟩⟩

variable {next : α → Act Scope β}

theorem bind {others : α → Setting → List (String × Value)} (h : Records names act s entries)
    (hnext : ∀ a s', act s = .ok a s' → Records names' (next a) s' (others a s')) :
    Records (names ++ names') (act >>= next) s (entries ++ recordsAfter (act s) others) := by
  have hstate := h.state
  cases hact : act s with
  | ok a s' =>
    have hothers := hnext a s' hact
    have hrun := bind_of_ok hact next
    rw [hact] at hstate
    refine ⟨h.admits.append ?_, ?_, ?_, ?_⟩
    · rw [← hstate]
      exact hothers.admits
    · rw [hrun, Scope.extend_append, ← hstate]
      exact hothers.state
    · rw [List.map_append, h.all a s' hact]
      exact (List.prefix_append_right_inj _).2 hothers.met
    · intro b s'' hok
      rw [hrun] at hok
      rw [List.map_append, h.all a s' hact]
      exact congrArg (names ++ ·) (hothers.all b s'' hok)
  | error stop s' =>
    have hrun := bind_of_error hact next
    rw [hact] at hstate
    simp only [recordsAfter, List.append_nil]
    refine ⟨h.admits, ?_, h.met.trans (List.prefix_append _ _), ?_⟩
    · rw [hrun]
      exact hstate
    · intro b s'' hok
      rw [hrun] at hok
      cases hok

theorem still_bind {others : α → Setting → List (String × Value)}
    (h : Still act) (hnext : ∀ a s', Records names' (next a) s' (others a s')) :
    Records names' (act >>= next) s (recordsAfter (act s) others) :=
  (of_still h s).bind fun a s' _ => hnext a s'

theorem bind_still (h : Records names act s entries)
    (hnext : ∀ a, Still (next a)) : Records names (act >>= next) s entries := by
  have hbind := h.bind fun a s' _ => of_still (hnext a) s'
  have hnone : recordsAfter (act s) (fun _ _ => []) = [] := by
    cases act s <;> rfl
  rw [hnone, List.append_nil, List.append_nil] at hbind
  exact hbind

theorem holding {values : List Value} (h : Records names act (s.hold values) entries) :
    Records names (Act.holding values act) s entries := by
  have hstate : Result.state (Act.holding values act s) = Result.state (act (s.hold values)) := by
    change Result.state (Act.holding values act (s.1, s.2)) = _
    rw [holding_run]
    change Result.state (Result.on id _ (act (s.hold values))) = _
    cases act (s.hold values) <;> rfl
  refine ⟨h.admits, hstate.trans h.state, h.met, fun a s' hok => ?_⟩
  obtain ⟨s₁, hact, -⟩ := holding_eq_ok_iff.1 hok
  exact h.all a s₁ hact

theorem look_bind {next : Scope → Act Scope α} :
    Records names (look >>= next) s entries ↔ Records names (next s.1) s entries := by
  have hrun := bind_of_ok (look_run (s := s)) next
  constructor
  · rintro ⟨hadmits, hstate, hmet, hall⟩
    rw [hrun] at hstate hall
    exact ⟨hadmits, hstate, hmet, hall⟩
  · rintro ⟨hadmits, hstate, hmet, hall⟩
    rw [← hrun] at hstate hall
    exact ⟨hadmits, hstate, hmet, hall⟩

theorem insertion (name : String) (value : Value) (s : Setting) :
    Records [name] (do put (← ofExcept ((← look).define name value))) s (s.1.newEntry name value) := by
  rw [look_bind]
  cases hscope : s.1.define name value with
  | ok scope =>
    obtain ⟨hunknown, rfl⟩ := Scope.define_eq_ok_iff.1 hscope
    rw [Scope.newEntry_of_unknown hunknown]
    exact ⟨Scope.admits_singleton hunknown value, rfl, List.prefix_rfl, fun _ _ _ => rfl⟩
  | error error =>
    rw [Scope.newEntry_of_define_error hscope]
    exact ⟨s.1.admits_nil, rfl, List.nil_prefix, by rintro _ _ ⟨⟩⟩

theorem defined (name doc : String) (value : Value) (s : Setting) :
    Records [name] (define name doc value) s
      (s.1.newEntry name (Value.define name doc value).copy) := by
  have h := (insertion name (Value.define name doc value).copy s).bind_still fun _ =>
    Still.pure (Value.define name doc value)
  simp only [bind_assoc] at h
  exact h

end Records

mutual

/-- The names that an atom defines, in the order in which their values are known. -/
def Atom.definitions : Atom → List String
  | .name .. | .number _ | .text _ | .flippedOperator .. | .broken _ => []
  | .list items => elementsDefinitions items
  | .subScript first rest => first.definitions ++ elementsDefinitions rest
  | .unclosed first rest _ => first.definitions ++ elementsDefinitions rest
  | .flipped arg _ => arg.definitions
  | .operator _ arg _ => arg.definitions

def Head.definitions : Head → List String
  | .atom value => value.definitions
  | .definition name _ _ value => value.definitions ++ [name]

def Element.definitions : Element → List String
  | .apply head args => head.definitions ++ argsDefinitions args
  | .andThen head args next => head.definitions ++ (argsDefinitions args ++ next.definitions)

def argsDefinitions : List Atom → List String
  | [] => []
  | arg :: args => arg.definitions ++ argsDefinitions args

def elementsDefinitions : List Element → List String
  | [] => []
  | element :: rest => element.definitions ++ elementsDefinitions rest

end

variable (p : Puller)

mutual

/-- The definitions that the evaluation of an atom comes to, up to the place where it fails. -/
def Atom.records : Atom → Setting → List (String × Value)
  | .name .., _ | .number _, _ | .text _, _ | .flippedOperator .., _ | .broken _, _ => []
  | .list items, s => itemsRecords items s
  | .subScript first rest, s =>
    first.records s ++ recordsAfter (first.eval p s) fun x s => restRecords (.start x) rest s
  | .unclosed first rest _, s =>
    first.records s ++ recordsAfter (first.eval p s) fun x s => restRecords (.start x) rest s
  | .flipped arg _, s => arg.records s
  | .operator _ arg _, s => arg.records s

/-- A definition is recorded if its name is unknown, its atom has a value, and its name is still
unknown then. -/
def Head.records : Head → Setting → List (String × Value)
  | .atom value, s => value.records s
  | .definition name _ doc value, s =>
    if (s.1.lookup? name).isSome then []
    else value.records s ++
      recordsAfter (value.eval p s) fun x s => s.1.newEntry name (Value.define name doc x).copy

def Element.records : Element → Setting → List (String × Value)
  | .apply head args, s =>
    head.records s ++ recordsAfter (head.eval p s) fun f s => argsRecords f args s
  | .andThen head args next, s =>
    head.records s ++ recordsAfter (head.eval p s) fun f s =>
      argsRecords f args s ++ recordsAfter (applyAll p f args s) fun v s => next.records (s.hold [v])

def argsRecords (f : Value) : List Atom → Setting → List (String × Value)
  | [], _ => []
  | arg :: args, s =>
    arg.records (s.hold [f]) ++ recordsAfter (holding [f] (arg.eval p) s) fun x s =>
      recordsAfter (applyTo p f x s) fun y s => argsRecords y args s

def itemsRecords : List Element → Setting → List (String × Value)
  | [], _ => []
  | item :: items, s =>
    item.records s ++ recordsAfter (item.eval p s) fun v s => itemsRecords items (s.hold [v])

def restRecords (flow : Flow) : List Element → Setting → List (String × Value)
  | [], _ => []
  | element :: rest, s =>
    element.records (s.hold (held flow)) ++
      recordsAfter (holding (held flow) (element.eval p) s) fun x s =>
        recordsAfter (flow.next p x s) fun flow s => restRecords flow rest s

end

variable {p}

mutual

theorem Atom.records_eval : ∀ (atom : Atom) (s : Setting),
    Records atom.definitions (atom.eval p) s (atom.records p s)
  | .name text span, s => .of_still (.lookupAt text span) s
  | .number _, s => .of_still (.pure _) s
  | .text _, s => .of_still (.pure _) s
  | .list items, s => (itemsRecords_eval items s).bind_still .listOf
  | .subScript first rest, s =>
    (first.records_eval s).bind fun x s _ =>
      (restRecords_eval (.start x) rest s).bind_still .flowResult
  | .unclosed first rest found, s =>
    (first.records_eval s).bind fun x s _ =>
      (restRecords_eval (.start x) rest s).bind_still fun flow =>
        (Still.flowResult flow).bind fun _ => .fail found.error
  | .flippedOperator op place span, s =>
    .of_still ((Still.operatorAt p op place).bind fun f =>
      (Still.lookupAt "flip" span).bind fun flip => .applyTo p flip f) s
  | .flipped arg span, s => (arg.records_eval s).bind_still fun f =>
    (Still.lookupAt "flip" span).bind fun flip => .applyTo p flip f
  | .operator op arg span, s => (arg.records_eval s).bind_still fun x =>
    ((Still.operatorAt p op span).holding [x]).bind fun f => .applyTo p f x
  | .broken found, s => .fail found.error s

theorem Head.records_eval : ∀ (head : Head) (s : Setting),
    Records head.definitions (head.eval p) s (head.records p s)
  | .atom value, s => value.records_eval s
  | .definition name span doc value, s => by
    unfold Head.eval Head.records
    rw [Records.look_bind]
    split
    · exact .fail _ s
    · exact (value.records_eval s).bind fun x s _ => .defined name doc x s

theorem Element.records_eval : ∀ (element : Element) (s : Setting),
    Records element.definitions (element.eval p) s (element.records p s)
  | .apply head args, s =>
    (head.records_eval s).bind fun f s _ => argsRecords_eval f args s
  | .andThen head args next, s =>
    (head.records_eval s).bind fun f s _ =>
      (argsRecords_eval f args s).bind fun v s _ => .holding (next.records_eval (Setting.hold [v] s))

theorem argsRecords_eval : ∀ (f : Value) (args : List Atom) (s : Setting),
    Records (argsDefinitions args) (applyAll p f args) s (argsRecords p f args s)
  | f, [], s => .of_still (.pure f) s
  | f, arg :: args, s =>
    (Records.holding (arg.records_eval (s.hold [f]))).bind fun x _ _ =>
      .still_bind (.applyTo p f x) fun y s => argsRecords_eval y args s

theorem itemsRecords_eval : ∀ (items : List Element) (s : Setting),
    Records (elementsDefinitions items) (evalAll p items) s (itemsRecords p items s)
  | [], s => .of_still (.pure []) s
  | item :: items, s =>
    (item.records_eval s).bind fun v s _ =>
      (Records.holding (itemsRecords_eval items (Setting.hold [v] s))).bind_still fun _ => .pure _

theorem restRecords_eval : ∀ (flow : Flow) (rest : List Element) (s : Setting),
    Records (elementsDefinitions rest) (evalRest p flow rest) s (restRecords p flow rest s)
  | flow, [], s => .of_still (.pure flow) s
  | flow, element :: rest, s =>
    (Records.holding (element.records_eval (s.hold (held flow)))).bind fun x _ _ =>
      .still_bind (.flowNext p x flow) fun flow s => restRecords_eval flow rest s

end

/-- The names that a script defines, in the order in which their values are known. -/
def definitions (script : Script) : List String :=
  script.first.definitions ++ elementsDefinitions script.rest

/-- The definitions that the evaluation of a script comes to, up to the place where it fails. -/
def records (p : Puller) (script : Script) (s : Setting) : List (String × Value) :=
  script.first.records p s ++
    recordsAfter (script.first.eval p s) fun x s => restRecords p (.start x) script.rest s

theorem records_eval (script : Script) (s : Setting) :
    Records script.definitions (script.eval p) s (script.records p s) := by
  refine (script.first.records_eval s).bind fun x s _ =>
    (restRecords_eval (.start x) script.rest s).bind_still fun flow =>
      (Still.flowResult flow).bind fun value => ?_
  split
  · exact .pure value
  · exact .fail _

end Script

end PullScript
