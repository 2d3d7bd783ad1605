import PullScript.Proofs.Script.Names

namespace PullScript.Application

open Act Script

inductive Call where
  | build (source : String)
  | parse (source : String)
  | parseTokens (tokens : List Token)
  | defineUser (name : String) (value : Value)

namespace Call

def perform (p : Puller) : Call → Act Application Unit
  | .build source => Application.build p source
  | .parse source => do let _ ← Application.parse p source
  | .parseTokens tokens => do let _ ← Application.parseTokens p tokens
  | .defineUser name value => Application.defineUser name value

def left (p : Puller) (call : Call) (app : Application) (w : World) : Application :=
  Result.state (call.perform p (app, w))

def definitions : Call → List String
  | .build source | .parse source =>
    match ofSource source with
    | .ok script => script.definitions
    | .error _ => []
  | .parseTokens tokens => (ofTokens tokens).definitions
  | .defineUser name _ => [name]

/-- The definitions that a call comes to: those that its script records, or the single one that it
asks for. -/
def records (p : Puller) (call : Call) (app : Application) (w : World) : List (String × Value) :=
  let s := Setting.hold (held app.root) (app.scope, w)
  match call with
  | .build source | .parse source =>
    match ofSource source with
    | .ok script => script.records p s
    | .error _ => []
  | .parseTokens tokens => (ofTokens tokens).records p s
  | .defineUser name value => app.scope.newEntry name value

end Call

/-- What a call has done to an application: it has defined the names of `entries`, the first ones of
`names`, and all of them unless it failed; and one that failed has left the root. -/
structure Registers {α : Type} (names : List String) (app : Application)
    (result : Act.Result Application α) (entries : List (String × Value)) : Prop where
  admits : app.scope.Admits entries
  scope : (Result.state result).scope = app.scope.extend entries
  met : entries.map (·.1) <+: names
  all : ∀ a s, result = .ok a s → entries.map (·.1) = names
  root : ∀ stop s, result = .error stop s → s.1.root = app.root

namespace Registers

variable {α β : Type} {names : List String} {app : Application} {entries : List (String × Value)}

theorem onScope {act : Act Scope α} {w : World}
    (h : Records names act (Setting.hold (held app.root) (app.scope, w)) entries) :
    Registers names app (Application.onScope act (app, w)) entries := by
  have hstate := h.state
  have hall := h.all
  rw [onScope_run]
  cases hact : act (Setting.hold (held app.root) (app.scope, w)) with
  | ok a s =>
    rw [hact] at hstate
    refine ⟨h.admits, hstate, h.met, fun _ _ _ => hall a s hact, ?_⟩
    rintro _ _ ⟨⟩
  | error stop s =>
    rw [hact] at hstate
    refine ⟨h.admits, hstate, h.met, ?_, ?_⟩
    · rintro _ _ ⟨⟩
    · rintro _ _ ⟨⟩
      rfl

theorem bind {act : Act Application α} {next : α → Act Application β} {w : World}
    (h : Registers names app (act (app, w)) entries)
    (hnext : ∀ a s, ∃ b s', next a s = .ok b s' ∧ s'.1.scope = s.1.scope) :
    Registers names app ((act >>= next) (app, w)) entries := by
  have hscope := h.scope
  cases hact : act (app, w) with
  | ok a s =>
    obtain ⟨b, s', hrun, hsame⟩ := hnext a s
    rw [bind_of_ok hact, hrun]
    rw [hact] at hscope
    refine ⟨h.admits, hsame.trans hscope, h.met, fun _ _ _ => h.all a s hact, ?_⟩
    rintro _ _ ⟨⟩
  | error stop s =>
    rw [bind_of_error hact]
    rw [hact] at hscope
    refine ⟨h.admits, hscope, h.met, ?_, ?_⟩
    · rintro _ _ ⟨⟩
    · rintro _ _ ⟨⟩
      exact h.root stop s hact

theorem of_error {stop : Stop} {w : World} :
    Registers names app (.error stop (app, w) : Act.Result Application α) [] := by
  refine ⟨app.scope.admits_nil, rfl, List.nil_prefix, ?_, ?_⟩
  · rintro _ _ ⟨⟩
  · rintro _ _ ⟨⟩
    rfl

end Registers

variable {p : Puller}

theorem parse_registers (source : String) (app : Application) (w : World) :
    Registers (Call.definitions (.parse source)) app (parse p source (app, w))
      (Call.records p (.parse source) app w) := by
  unfold parse Call.definitions Call.records
  dsimp only
  cases ofSource source with
  | ok script => exact .onScope (script.records_eval _)
  | error error => exact .of_error

theorem Call.registers (p : Puller) (call : Call) (app : Application) (w : World) :
    Registers call.definitions app (call.perform p (app, w)) (call.records p app w) := by
  cases call with
  | build source => exact (parse_registers source app w).bind fun root s => ⟨(), _, rfl, rfl⟩
  | parse source => exact (parse_registers source app w).bind fun _ s => ⟨(), s, rfl, rfl⟩
  | parseTokens tokens =>
    have hparse : Registers _ app (Application.parseTokens p tokens (app, w)) _ :=
      .onScope ((ofTokens tokens).records_eval _)
    exact hparse.bind fun _ s => ⟨(), s, rfl, rfl⟩
  | defineUser name value => exact .onScope (.insertion name value _)

/-- What calls make of an application, each of them failing or not, in whatever world. -/
inductive Later (app : Application) : Application → Prop
  | refl : Later app app
  | call {app' : Application} (p : Puller) (call : Call) (w : World) :
    Later app app' → Later app (call.left p app' w)

structure Named (registry : Registry) (app : Application) : Prop where
  registry_eq : app.scope.registry = registry
  noBuiltin : ∀ name ∈ app.scope.userNames, registry.find? name = none
  once : app.scope.userNames.Nodup

theorem Call.userNames_left (p : Puller) (call : Call) (app : Application) (w : World) :
    (call.left p app w).scope.userNames.Perm
      ((call.records p app w).map (·.1) ++ app.scope.userNames) := by
  rw [left, (call.registers p app w).scope]
  exact app.scope.userNames_extend _

theorem Named.call {registry : Registry} {app : Application} (h : Named registry app) (p : Puller)
    (call : Call) (w : World) : Named registry (call.left p app w) := by
  have hcall := call.registers p app w
  have hnames := call.userNames_left p app w
  have hunknown : ∀ name ∈ (call.records p app w).map (·.1),
      name ∉ app.scope.userNames ∧ registry.find? name = none := by
    intro name hname
    obtain ⟨entry, hentry, rfl⟩ := List.mem_map.1 hname
    rw [← h.registry_eq]
    exact Scope.lookup?_eq_none_iff.1 (hcall.admits.unknown entry hentry)
  refine ⟨?_, fun name hname => ?_, hnames.nodup_iff.2 (List.nodup_append.2 ⟨hcall.admits.once, h.once, ?_⟩)⟩
  · rw [Call.left, hcall.scope]
    exact h.registry_eq
  · obtain hnew | hold := List.mem_append.1 (hnames.mem_iff.1 hname)
    · exact (hunknown name hnew).2
    · exact h.noBuiltin name hold
  · rintro name hname _ hold rfl
    exact (hunknown name hname).1 hold

theorem Later.named {registry : Registry} {app app' : Application} (hlater : Later app app')
    (h : Named registry app) : Named registry app' := by
  induction hlater with
  | refl => exact h
  | call p call w _ ih => exact ih.call p call w

theorem Later.lookup {app app' : Application} (hlater : Later app app') {name : String} {value : Value}
    (h : app.scope.user.lookup name = some value) : app'.scope.user.lookup name = some value := by
  induction hlater with
  | refl => exact h
  | @call app' p call w _ ih =>
    have hcall := call.registers p app' w
    rw [Call.left, hcall.scope]
    exact hcall.admits.lookup ih

/-- Whatever was done with an application, no defined name is a builtin. What a name stands for stays
when more is done, and a script that cannot be built leaves the root. A call adds the definitions
that it comes to, each once: they are the first ones of those it contains, and all of them unless it
fails. -/
theorem Later.definitions_recorded {registry : Registry} {options : Options} {app : Application}
    (h : Later { scope := { registry }, options } app) :
    (∀ name ∈ app.scope.userNames, registry.find? name = none) ∧
      (∀ app', Later app app' → ∀ name value, app.scope.user.lookup name = some value →
        app'.scope.user.lookup name = some value) ∧
      (∀ p source w stop s, build p source (app, w) = .error stop s → s.1.root = app.root) ∧
      ∀ (p : Puller) (call : Call) (w : World),
        (call.left p app w).scope.userNames.Perm
          ((call.records p app w).map (·.1) ++ app.scope.userNames) ∧
        (call.left p app w).scope.userNames.Nodup ∧
        (∀ entry ∈ call.records p app w,
          (call.left p app w).scope.user.lookup entry.1 = some entry.2) ∧
        (call.records p app w).map (·.1) <+: call.definitions ∧
        ∀ s, call.perform p (app, w) = .ok () s →
          (call.records p app w).map (·.1) = call.definitions := by
  have hnew : Named registry { scope := { registry }, options } :=
    ⟨rfl, by simp [Scope.userNames], List.nodup_nil⟩
  have hnamed := h.named hnew
  refine ⟨hnamed.noBuiltin, fun app' hlater name value => hlater.lookup, ?_, fun p call w => ?_⟩
  · intro p source w stop s hbuild
    exact (Call.registers p (.build source) app w).root stop s hbuild
  · have hcall := call.registers p app w
    refine ⟨call.userNames_left p app w, (hnamed.call p call w).once, ?_, hcall.met, fun s => hcall.all () s⟩
    rw [Call.left, hcall.scope]
    exact hcall.admits.lookup_new

/-- `def x :outer: [def x :inner: :a:]`: the name is recorded with the inner value, and the outer
definition, which fails, adds nothing. -/
theorem definitions_recorded_inside :
    let call : Call := .parseTokens <| [.definition, .name "x", .text "outer", .openBracket,
      .definition, .name "x", .text "inner", .text "a", .closeBracket].map fun kind => ⟨kind, default⟩
    let app : Application := { scope := { registry := {} } }
    (call.records (puller 1) app {}).map (·.1) = ["x"] ∧
      call.definitions = ["x", "x"] ∧
      (call.left (puller 1) app {}).scope.userNames.Perm ["x"] := by
  intro call app
  have hrecords : (call.records (puller 1) app {}).map (·.1) = ["x"] := by rfl
  have happ : Later app app := .refl
  have hall := happ.definitions_recorded.2.2.2 (puller 1) call {}
  rw [hrecords] at hall
  exact ⟨hrecords, rfl, hall.1⟩

end PullScript.Application
