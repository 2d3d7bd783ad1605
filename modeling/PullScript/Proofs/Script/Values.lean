import PullScript.Application
import PullScript.Proofs.Eval.Ends

namespace PullScript

open Act

variable {name : String} {value : Value} {flow : Script.Flow}

structure Script.Closed (registry : Registry) (p : Puller) (C : Value → Prop) : Prop where
  number : ∀ n, C (.number n)
  text : ∀ bytes, C (.textOf bytes)
  builtin : ∀ name value, registry.lookup? name = some value → C value
  copy : ∀ value, C value → C value.copy
  define : ∀ name doc value, C value → C (.define name doc value)
  list : ∀ elements items, (∀ item ∈ items, C item) → Value.elementTypes? items = some elements →
    C (.list elements items 0)
  chain : ∀ stages value, (∀ stage ∈ stages, C stage) → Value.chainOf stages = .ok value → C value
  apply : ∀ f x, C f → C x → Leaves f (p.apply x) (fun y _ => C y) fun _ => True

/-- All defined names of a scope stand for values of a class, and its builtins are these. -/
def Scope.Within (registry : Registry) (C : Value → Prop) (scope : Scope) : Prop :=
  scope.registry = registry ∧ ∀ entry ∈ scope.user, C entry.2

theorem Scope.mem_insert {entry : String × Value} :
    ∀ {user : List (String × Value)}, entry ∈ insert name value user ↔ entry = (name, value) ∨ entry ∈ user
  | [] => by simp [insert]
  | (other, held) :: rest => by
    unfold insert
    split
    · simp
    · simp [mem_insert, or_left_comm]

namespace Script

/-- The values that the elements of a script have come to so far are in a class. -/
def Flow.Within (C : Value → Prop) : Flow → Prop
  | .stages functions => ∀ f ∈ functions, C f
  | .value x => C x

namespace Closed

variable {registry : Registry} {p : Puller} {C : Value → Prop}

section

variable (h : Closed registry p C)
include h

theorem lookup {scope : Scope} (hscope : scope.Within registry C)
    (hvalue : scope.lookup? name = some value) : C value := by
  unfold Scope.lookup? Scope.lookupUser? at hvalue
  cases huser : scope.user.lookup name with
  | some stored =>
    rw [huser] at hvalue
    cases hvalue
    obtain ⟨before, after, hsplit, -⟩ := List.lookup_eq_some_iff.1 huser
    exact h.copy _ (hscope.2 (name, stored) (by simp [hsplit]))
  | none =>
    rw [huser] at hvalue
    exact h.builtin name value (hscope.1 ▸ hvalue)

theorem lookupAt (name : String) (span : Span) :
    Maintains (Scope.Within registry C) C (lookupAt name span) := by
  refine .look fun scope hscope => ?_
  split
  · exact .pure (h.lookup hscope ‹_›)
  · exact .fail

theorem applyTo {σ : Type} [Holder σ] {I : σ → Prop} {f x : Value} (hf : C f) (hx : C x) :
    Maintains I C (applyTo p f x) := by
  have happly : Leaves f (p.apply x) (fun y _ => C y ∧ True) fun _ => True :=
    (h.apply f x hf hx).imp (fun _ _ hy => ⟨hy, trivial⟩) fun _ => id
  exact .bind (.aside happly) fun _ hy => .pure hy.1

theorem operatorAt (op : Operator) (span : Span) :
    Maintains (Scope.Within registry C) C (operatorAt p op span) :=
  .bind (h.lookupAt _ span) fun _ hf => .bind (h.lookupAt _ span) fun _ hflip => h.applyTo hflip hf

theorem defined (name doc : String) (hvalue : C value) :
    Maintains (Scope.Within registry C) C (Script.define name doc value) := by
  intro scope hscope
  have hdefined := h.define name doc value hvalue
  refine .look (.bind (Q := fun scope' _ => scope'.Within registry C) (.ofExcept ?_ hscope) ?_)
  · intro scope' hdefine
    unfold Scope.define at hdefine
    split at hdefine
    · cases hdefine
    · cases hdefine
      refine ⟨hscope.1, fun entry hentry => ?_⟩
      obtain rfl | hentry := Scope.mem_insert.1 hentry
      · exact h.copy _ hdefined
      · exact hscope.2 entry hentry
  · intro scope' _ hscope'
    exact fun _ _ hw => ⟨⟨hdefined, hscope'⟩, hw⟩

end

theorem flowStart {first : Value} (hfirst : C first) : (Flow.start first).Within C := by
  unfold Flow.start
  split
  · exact List.forall_mem_singleton.2 hfirst
  · exact hfirst

theorem flowNext (h : Closed registry p C) {element : Value} (helement : C element) (hflow : flow.Within C) :
    Maintains (Scope.Within registry C) (Flow.Within C) (flow.next p element) := by
  cases flow with
  | stages functions =>
    have hfunction : Leaves element (requireKind .fn) (fun _ f => True ∧ C f) fun _ => True := by
      refine .look ?_
      split
      · exact .pure ⟨trivial, helement⟩
      · exact .fail trivial
    refine .bind (.bind (.aside hfunction) fun x hx => .pure hx.2) fun f hf => .pure ?_
    exact List.forall_mem_append.2 ⟨hflow, List.forall_mem_singleton.2 hf⟩
  | value x => exact .bind (h.applyTo helement hflow) fun _ hy => .pure hy

theorem flowResult (h : Closed registry p C) (hflow : flow.Within C) :
    Maintains (Scope.Within registry C) C (flow.result : Act Scope Value) := by
  unfold Flow.result
  split
  · exact .pure (hflow _ List.mem_cons_self)
  · exact .ofExcept fun value hvalue => h.chain _ value hflow hvalue
  · exact .pure hflow

mutual

theorem atom (h : Closed registry p C) : ∀ atom : Atom, Maintains (Scope.Within registry C) C (atom.eval p)
  | .name text span => h.lookupAt text span
  | .number n => .pure (h.number n)
  | .text _ => .pure (h.text _)
  | .list items => .bind (h.all items) fun _ hitems =>
    .bind (.ofOption fun _ => id) fun elements helements => .pure (h.list elements _ hitems helements)
  | .subScript first others => .bind (h.element first) fun _ hfirst =>
    .bind (h.rest others (flowStart hfirst)) fun _ hflow => h.flowResult hflow
  | .unclosed first others _ => .bind (h.element first) fun _ hfirst =>
    .bind (h.rest others (flowStart hfirst)) fun _ hflow => .bind (h.flowResult hflow) fun _ _ => .fail
  | .flippedOperator op place span => .bind (h.operatorAt op place) fun _ hf =>
    .bind (h.lookupAt _ span) fun _ hflip => h.applyTo hflip hf
  | .flipped arg span => .bind (h.atom arg) fun _ hf =>
    .bind (h.lookupAt _ span) fun _ hflip => h.applyTo hflip hf
  | .operator op arg span => .bind (h.atom arg) fun _ hx =>
    .bind (.holding (h.operatorAt op span)) fun _ hf => h.applyTo hf hx
  | .broken _ => .fail

theorem head (h : Closed registry p C) : ∀ head : Head, Maintains (Scope.Within registry C) C (head.eval p)
  | .atom value => h.atom value
  | .definition name span doc value => by
    refine .look fun scope _ => ?_
    split
    · exact .fail
    · exact .bind (h.atom value) fun _ hvalue => h.defined name doc hvalue

theorem element (h : Closed registry p C) :
    ∀ element : Element, Maintains (Scope.Within registry C) C (element.eval p)
  | .apply first args => .bind (h.head first) fun _ hf => h.applied args hf
  | .andThen first args next => .bind (h.head first) fun _ hf =>
    .bind (h.applied args hf) fun _ _ => .holding (h.element next)

theorem applied (h : Closed registry p C) :
    ∀ (args : List Atom) {f : Value}, C f → Maintains (Scope.Within registry C) C (applyAll p f args)
  | [], _, hf => .pure hf
  | arg :: args, _, hf => .bind (.holding (h.atom arg)) fun _ hx =>
    .bind (h.applyTo hf hx) fun _ hy => h.applied args hy

theorem all (h : Closed registry p C) :
    ∀ elements : List Element, Maintains (Scope.Within registry C) (∀ value ∈ ·, C value) (evalAll p elements)
  | [] => .pure (List.forall_mem_nil _)
  | first :: others => .bind (h.element first) fun _ hvalue =>
    .bind (.holding (h.all others)) fun _ hvalues => .pure (List.forall_mem_cons.2 ⟨hvalue, hvalues⟩)

theorem rest (h : Closed registry p C) : ∀ (elements : List Element) {flow : Flow}, flow.Within C →
    Maintains (Scope.Within registry C) (Flow.Within C) (evalRest p flow elements)
  | [], _, hflow => .pure hflow
  | first :: others, _, hflow => .bind (.holding (h.element first)) fun _ hvalue =>
    .bind (h.flowNext hvalue hflow) fun _ hflow' => h.rest others hflow'

end

/-- A script over names of the class stands for a value of the class, and so do all names that it
leaves defined, also where it fails. -/
theorem eval (h : Closed registry p C) (script : Script) : Maintains (Scope.Within registry C) C (script.eval p) := by
  refine .bind (h.element script.first) fun _ hfirst =>
    .bind (h.rest script.rest (flowStart hfirst)) fun flow hflow =>
      .bind (h.flowResult hflow) fun value hvalue => ?_
  split
  · exact .pure hvalue
  · exact .fail

end Closed

end Script

namespace Application

def Within (registry : Registry) (C : Value → Prop) (app : Application) : Prop :=
  app.scope.Within registry C ∧ ∀ root, app.root = some root → C root

variable {registry : Registry} {p : Puller} {C : Value → Prop}

theorem parse_within (h : Script.Closed registry p C) (source : String) :
    Maintains (Within registry C) C (parse p source) := by
  refine .bind (.ofExcept fun _ _ => trivial) fun script _ app happ => .look (.within ?_)
  exact (h.eval script happ.1).imp (fun _ _ ⟨hvalue, hscope⟩ => ⟨hvalue, hscope, happ.2⟩)
    fun _ hscope => ⟨hscope, happ.2⟩

theorem build_within (h : Script.Closed registry p C) (source : String) :
    Maintains (Within registry C) (fun _ => True) (build p source) := by
  refine .bind (parse_within h source) fun value hvalue app happ => ?_
  refine Ends.change ⟨trivial, happ.1, ?_⟩
  rintro _ ⟨⟩
  exact hvalue

/-- Scripts were built into the application, one after the other, whatever became of each. -/
inductive Scripted (registry : Registry) (options : Options) : Application → Prop
  | new : Scripted registry options { scope := { registry }, options }
  | built {app app' : Application} {fuel : Nat} {source : String} {w w' : World} :
    Scripted registry options app → build (puller fuel) source (app, w) = .ok () (app', w') →
    Scripted registry options app'
  | failed {app app' : Application} {fuel : Nat} {source : String} {w w' : World} {stop : Stop} :
    Scripted registry options app → build (puller fuel) source (app, w) = .error stop (app', w') →
    Scripted registry options app'

theorem Scripted.within {options : Options} {app : Application}
    (hclosed : ∀ fuel, Script.Closed registry (puller fuel) C) (h : Scripted registry options app) :
    app.Within registry C := by
  induction h with
  | new => exact ⟨⟨rfl, nofun⟩, nofun⟩
  | @built _ _ fuel source w _ _ hbuild ih =>
    have hbuilt := build_within (hclosed fuel) source ih () w trivial
    rw [hbuild] at hbuilt
    exact hbuilt.1.2
  | @failed _ _ fuel source w _ _ _ hbuild ih =>
    have hbuilt := build_within (hclosed fuel) source ih () w trivial
    rw [hbuild] at hbuilt
    exact (hbuilt trivial).1

end Application

end PullScript
