import PullScript.Proofs.Script.Swapping
import PullScript.Proofs.Twin.Scripts

namespace PullScript.Script

open Act

variable {x y known : Value} {flow flow' : Flow} {value : Atom} {other : String}

inductive FlowTwin (ports : Bool) : Flow → Flow → Prop
  | stages {fs gs : List Value} : Value.AllTwin ports fs gs → FlowTwin ports (.stages fs) (.stages gs)
  | value {x y : Value} : Value.Twin ports x y → FlowTwin ports (.value x) (.value y)

instance : Twinned Flow := ⟨FlowTwin⟩

theorem flowStart_twin (h : Value.Twin false x y) : FlowTwin false (.start x) (.start y) := by
  unfold Flow.start
  rw [← h.kind_eq]
  split
  · exact .stages (.singleton h)
  · exact .value h

/-- Where work on one side gives an answer, work on the other side comes to a twin of it, in whatever
world, and the names on both sides stay in a relation. -/
def Carried {α : Type} [Twinned α] (R : Scope → Scope → Prop) (a : Act Scope α) (b : Nat → Act Scope α) :
    Prop :=
  ∀ ⦃s t : Scope⦄ ⦃w : World⦄ ⦃x : α⦄ ⦃s' : Setting⦄, R s t → a (s, w) = .ok x s' → ∀ w',
    ∃ y t', Comes b (t, w') (.ok y t') ∧ twin false x y ∧ R s'.1 t'.1

namespace Carried

variable {α β : Type} [Twinned α] [Twinned β] {R : Scope → Scope → Prop} {a : Act Scope α}
  {b : Nat → Act Scope α}

theorem pure {x y : α} (h : twin false x y) : Carried R (Pure.pure x) fun _ => Pure.pure y := by
  rintro s t w _ _ hst ⟨⟩ w'
  exact ⟨y, (t, w'), .of_eq fun _ => rfl, h, hst⟩

theorem bind {f : α → Act Scope β} {g : Nat → α → Act Scope β} (h : Carried R a b)
    (hnext : ∀ x y, twin false x y → Carried R (f x) fun n => g n y) : Carried R (a >>= f) fun n => b n >>= g n := by
  intro s t w z s' hst hrun w'
  obtain ⟨x, s₁, ha, hf⟩ := bind_eq_ok_iff.1 hrun
  obtain ⟨y, t₁, hcomes, hxy, hst₁⟩ := h hst ha w'
  obtain ⟨z', t', hcomes', hz, hst'⟩ := hnext x y hxy hst₁ hf t₁.2
  exact ⟨z', t', hcomes.bind hcomes', hz, hst'⟩

theorem holdingLeft (h : Carried R a b) (values : List Value) : Carried R (holding values a) b := by
  intro s t w x s' hst hrun w'
  obtain ⟨s₁, ha, rfl⟩ := holding_eq_ok_iff.1 hrun
  exact h hst ha w'

theorem holdingRight (h : Carried R a b) (values : List Value) : Carried R a fun n => holding values (b n) := by
  intro s t w x s' hst hrun w'
  obtain ⟨y, t', hcomes, hxy, hst'⟩ := h hst hrun { w' with around := values :: w'.around }
  exact ⟨y, _, hcomes.on fun _ => holding_run .., hxy, hst'⟩

theorem holding {values values' : List Value} (h : Carried R a b) :
    Carried R (Act.holding values a) fun n => Act.holding values' (b n) :=
  (h.holdingLeft values).holdingRight values'

theorem aside {τ : Type} [Twinned τ] {other other' : τ} {a : Act τ α} {b : Nat → Act τ α}
    (h : AgreeFrom ⟨false, false⟩ other other' a b) :
    Carried R (Act.aside other a) fun n => Act.aside other' (b n) := by
  intro s t w x s' hst hrun w'
  have hworlds (w w' : World) : World.Twin ⟨false, false⟩ w w' := by constructor <;> simp
  rw [aside_run, holding_run] at hrun
  obtain ⟨s₁, hout⟩ | ⟨result, hcomes, hresult⟩ := h { w with around := held s :: w.around }
    { w' with around := held t :: w'.around } (hworlds _ _)
  · rw [hout] at hrun
    cases hrun
  · have hcomes' : Comes (fun n => Act.aside other' (b n)) (t, w') _ :=
      (hcomes.on fun _ => holding_run ..).through (fun _ => ⟨_, rfl⟩) fun _ => aside_run ..
    generalize a (other, { w with around := held s :: w.around }) = left at hresult hrun
    cases hresult with
    | ok hxy hother _ =>
      cases hrun
      exact ⟨_, _, hcomes', ⟨hxy, hother⟩, hst⟩
    | failed error _ _ => cases hrun

theorem applyTo (n : Nat) {f g : Value} (hf : Value.Twin false f g) (hx : Value.Twin false x y) :
    Carried R (applyTo (puller n) f x) fun k => applyTo (puller k) g y :=
  .bind (.aside ((asks_puller false n).apply hx hf)) fun _ _ hz => .pure hz.1

theorem asFunction (h : Value.Twin false x y) : Carried R (asFunction x) fun _ => asFunction y := by
  intro s t w f s' hst hrun w'
  obtain ⟨hkind, rfl, rfl⟩ := asFunction_eq_ok_iff.1 hrun
  exact ⟨y, (t, w'), .of_eq fun _ => asFunction_eq_ok_iff.2 ⟨h.kind_eq ▸ hkind, rfl, rfl⟩, h, hst⟩

theorem lookupAt {name : String} (span span' : Span)
    (h : ∀ {s t known}, R s t → s.lookup? name = some known → ∃ known', t.lookup? name = some known' ∧
      Value.Twin false known known') :
    Carried R (lookupAt name span) fun _ => lookupAt name span' := by
  intro s t w v s' hst hrun w'
  obtain ⟨hlookup, rfl⟩ := lookupAt_eq_ok_iff.1 hrun
  obtain ⟨v', hlookup', hv⟩ := h hst hlookup
  exact ⟨v', (t, w'), .of_eq fun _ => lookupAt_eq_ok_iff.2 ⟨hlookup', rfl⟩, hv, hst⟩

theorem listOf {xs ys : List Value} (h : Value.AllTwin false xs ys) : Carried R (listOf xs) fun _ => listOf ys := by
  intro s t w v s' hst hrun w'
  obtain ⟨elements, helements, rfl, rfl⟩ := listOf_eq_ok_iff.1 hrun
  rw [h.elementTypes?_eq] at helements
  exact ⟨.list elements ys 0, (t, w'), .of_eq fun _ => listOf_eq_ok_iff.2 ⟨elements, helements, rfl, rfl⟩,
    .list elements 0 h, hst⟩

theorem flowNext (n : Nat) (h : Value.Twin false x y) (hflow : FlowTwin false flow flow') :
    Carried R (flow.next (puller n) x) fun k => flow'.next (puller k) y := by
  cases hflow with
  | stages hstages =>
    exact .bind (.asFunction h) fun f g hfg => .pure (.stages (hstages.append (.singleton hfg)))
  | value hvalue => exact .bind (.applyTo n h hvalue) fun z z' hz => .pure (.value hz)

theorem chainOf {fs gs : List Value} (h : Value.AllTwin false fs gs) :
    Carried R (ofExcept (Value.chainOf fs)) fun _ => ofExcept (Value.chainOf gs) := by
  intro s t w v s' hst hrun w'
  obtain ⟨hchain, rfl⟩ := ofExcept_eq_ok_iff.1 hrun
  obtain ⟨v', hchain', hv⟩ := h.chainOf hchain
  exact ⟨v', (t, w'), .of_eq fun _ => ofExcept_eq_ok_iff.2 ⟨hchain', rfl⟩, hv, hst⟩

theorem flowResult (h : FlowTwin false flow flow') : Carried R flow.result fun _ => flow'.result := by
  cases h with
  | value hvalue => exact .pure hvalue
  | stages hstages =>
    cases hstages with
    | nil => exact .chainOf .nil
    | cons hf hrest =>
      cases hrest with
      | nil => exact .pure hf
      | cons hg hrest => exact .chainOf (.cons hf (.cons hg hrest))

end Carried

def impliedNames : List String :=
  ["add", "sub", "mul", "div", "index", "flip"]

/-- What a relation of the names on both sides must have for trees that are alike to have twins as
values. -/
structure Follows (N : String → Atom → Prop) (D : String → Prop) (R : Scope → Scope → Prop) : Prop where
  name : ∀ {text atom} (span : Span), N text atom →
    Carried R (lookupAt text span) fun n => atom.eval (puller n)
  implied : ∀ {s t name value}, R s t → name ∈ impliedNames → s.lookup? name = some value →
    ∃ value', t.lookup? name = some value' ∧ Value.Twin false value value'
  unknown : ∀ {s t name}, R s t → D name → s.lookup? name = none → t.lookup? name = none
  define : ∀ {s t name x y} (doc : String), R s t → D name → s.lookup? name = none → Value.Twin false x y →
    R (s.extend [(name, (Value.define name doc x).copy)]) (t.extend [(name, (Value.define name doc y).copy)])

namespace Follows

variable {N : String → Atom → Prop} {D : String → Prop} {R : Scope → Scope → Prop}

section

variable (h : Follows N D R)
include h

theorem lookupAt {name : String} (hname : name ∈ impliedNames) (span span' : Span) :
    Carried R (Script.lookupAt name span) fun _ => Script.lookupAt name span' :=
  .lookupAt span span' fun hst hknown => h.implied hst hname hknown

theorem flip (span span' : Span) :
    Carried R (Script.lookupAt "flip" span) fun _ => Script.lookupAt "flip" span' :=
  h.lookupAt (by simp [impliedNames]) span span'

theorem operatorAt (n : Nat) (op : Operator) (span span' : Span) :
    Carried R (Script.operatorAt (puller n) op span) fun k => Script.operatorAt (puller k) op span' := by
  have hop : op.builtin ∈ impliedNames := by cases op <;> simp [Operator.builtin, impliedNames]
  exact .bind (h.lookupAt hop span span') fun f g hf => .bind (h.flip span span') fun flip flip' hflip =>
    .applyTo n hflip hf

theorem defined {name : String} (doc : String) (hname : D name) (hxy : Value.Twin false x y) :
    Carried R (Script.define name doc x) fun _ => Script.define name doc y := by
  intro s t w v s' hst hrun w'
  obtain ⟨rfl, scope, hscope, rfl⟩ := define_eq_ok_iff.1 hrun
  obtain ⟨hunknown, rfl⟩ := Scope.define_eq_ok_iff.1 hscope
  have hdefine : t.define name (Value.define name doc y).copy =
      .ok (t.extend [(name, (Value.define name doc y).copy)]) :=
    Scope.define_eq_ok_iff.2 ⟨h.unknown hst hname hunknown, rfl⟩
  have hrun' : Script.define name doc y (t, w') = .ok (Value.define name doc y) (_, w') :=
    define_eq_ok_iff.2 ⟨rfl, _, hdefine, rfl⟩
  exact ⟨_, _, .of_eq fun _ => hrun', .definedLeft _ _ (.definedRight _ _ hxy),
    h.define doc hst hname hunknown hxy⟩

theorem definition (n : Nat) {name : String} (doc : String) (span span' : Span) (hname : D name)
    {value' : Atom} (hvalue : Carried R (value.eval (puller n)) fun k => value'.eval (puller k)) :
    Carried R ((Head.definition name span doc value).eval (puller n))
      fun k => (Head.definition name span' doc value').eval (puller k) := by
  intro s t w v s' hst hrun w'
  unfold Head.eval at hrun ⊢
  rw [bind_of_ok look_run] at hrun
  cases hlookup : s.lookup? name with
  | some known =>
    simp only [hlookup, Option.isSome_some, if_true] at hrun
    cases hrun
  | none =>
    have hunknown := h.unknown hst hname hlookup
    simp only [hlookup, Option.isSome_none, Bool.false_eq_true, if_false] at hrun
    obtain ⟨y, t', hcomes, hy, hst'⟩ := hvalue.bind (fun x y hxy => h.defined doc hname hxy) hst hrun w'
    refine ⟨y, t', hcomes.congr fun k => ?_, hy, hst'⟩
    rw [bind_of_ok look_run]
    simp only [hunknown, Option.isSome_none, Bool.false_eq_true, if_false]

end

mutual

theorem atom (h : Follows N D R) (n : Nat) {atom atom' : Atom} :
    atom.Like N D atom' → Carried R (atom.eval (puller n)) fun k => atom'.eval (puller k)
  | .name span hname => h.name span hname
  | .number x => .pure (.number x)
  | .text content => .pure (.text _ false)
  | .list hitems => .bind (h.all n hitems) fun _ _ hvalues => .listOf hvalues
  | .subScript hfirst hrest => .bind (h.element n hfirst) fun _ _ hx =>
    .bind (h.rest n hrest (flowStart_twin hx)) fun _ _ hflow => .flowResult hflow
  | .flippedOperator op place place' span span' => .bind (h.operatorAt n op place place') fun _ _ hf =>
    .bind (h.flip span span') fun _ _ hflip => .applyTo n hflip hf
  | .flipped span span' harg => .bind (h.atom n harg) fun _ _ hf =>
    .bind (h.flip span span') fun _ _ hflip => .applyTo n hflip hf
  | .operator op span span' harg => .bind (h.atom n harg) fun _ _ hx =>
    .bind (.holding (h.operatorAt n op span span')) fun _ _ hf => .applyTo n hf hx

theorem head (h : Follows N D R) (n : Nat) {head head' : Head} :
    head.Like N D head' → Carried R (head.eval (puller n)) fun k => head'.eval (puller k)
  | .atom hvalue => h.atom n hvalue
  | .definition span span' doc hname hvalue => h.definition n doc span span' hname (h.atom n hvalue)

theorem element (h : Follows N D R) (n : Nat) {element element' : Element} : element.Like N D element' →
    Carried R (element.eval (puller n)) fun k => element'.eval (puller k)
  | .apply hhead hargs => .bind (h.head n hhead) fun _ _ hf => h.args n hargs hf
  | .andThen hhead hargs hnext => .bind (h.head n hhead) fun _ _ hf =>
    .bind (h.args n hargs hf) fun _ _ _ => .holding (h.element n hnext)

theorem args (h : Follows N D R) (n : Nat) {args args' : List Atom} {f g : Value} :
    ArgsLike N D args args' → Value.Twin false f g →
    Carried R (applyAll (puller n) f args) fun k => applyAll (puller k) g args'
  | .nil, hf => .pure hf
  | .cons harg hargs, hf => .bind (.holding (h.atom n harg)) fun _ _ hx =>
    .bind (.applyTo n hf hx) fun _ _ hy => h.args n hargs hy

theorem all (h : Follows N D R) (n : Nat) {elements elements' : List Element} : ElementsLike N D elements elements' →
    Carried R (evalAll (puller n) elements) fun k => evalAll (puller k) elements'
  | .nil => .pure .nil
  | .cons hfirst hrest => .bind (h.element n hfirst) fun _ _ hx =>
    .bind (.holding (h.all n hrest)) fun _ _ hxs => .pure (.cons hx hxs)

theorem rest (h : Follows N D R) (n : Nat) {elements elements' : List Element} {flow flow' : Flow} :
    ElementsLike N D elements elements' → FlowTwin false flow flow' →
    Carried R (evalRest (puller n) flow elements) fun k => evalRest (puller k) flow' elements'
  | .nil, hflow => .pure hflow
  | .cons hfirst hrest, hflow => .bind (.holding (h.element n hfirst)) fun _ _ hx =>
    .bind (.flowNext n hx hflow) fun _ _ hflow' => h.rest n hrest hflow'

end

end Follows

def SameName (text : String) (atom : Atom) : Prop :=
  ∃ span, atom = .name text span

def Atom.bracketed (atom : Atom) : Atom :=
  .subScript (.apply (.atom atom) []) []

/-- In the place of one name stands an atom in brackets that is the same, wherever it is, as a given
one. -/
def Inlined (name : String) (value : Atom) (text : String) (atom : Atom) : Prop :=
  if text = name then ∃ value', value.Like SameName (fun _ => False) value' ∧ atom = value'.bracketed
  else SameName text atom

theorem Flow.result_start (x : Value) : ((Flow.start x).result : Act Scope Value) = pure x := by
  unfold Flow.start
  split <;> rfl

theorem eval_bracketed (p : Puller) (atom : Atom) : atom.bracketed.eval p = atom.eval p := by
  unfold Atom.bracketed
  simp only [Atom.eval, Element.eval, Head.eval, applyAll, evalRest, bind_pure, pure_bind, Flow.result_start]

/-- One side knows a name for a value, the other does not; for the rest their names stand for twins. What
was known in `base` is known. -/
structure Instead (base : Scope) (name : String) (value : Value) (s t : Scope) : Prop where
  kept : ∀ {other known}, base.lookup? other = some known → s.lookup? other = some known
  named : s.lookup? name = some value
  others : ∀ {other}, other ≠ name → Value.OptionTwin false (s.lookup? other) (t.lookup? other)

namespace Instead

variable {base : Scope} {name : String} {stored : Value} {s t : Scope}

section

variable (h : Instead base name stored s t)
include h

theorem lookup (hother : other ≠ name) (hknown : s.lookup? other = some known) :
    ∃ known', t.lookup? other = some known' ∧ Value.Twin false known known' := by
  have htwin := h.others hother
  rw [hknown] at htwin
  generalize t.lookup? other = found at htwin
  cases htwin with
  | some htwin => exact ⟨_, rfl, htwin⟩

theorem unknown (hother : other ≠ name) (hnone : s.lookup? other = none) :
    t.lookup? other = none := by
  have htwin := h.others hother
  rw [hnone] at htwin
  generalize t.lookup? other = found at htwin
  cases htwin
  rfl

theorem lookup_base (hunknown : base.lookup? name = none) (hknown : base.lookup? other = some known) :
    ∃ known', t.lookup? other = some known' ∧ Value.Twin false known known' := by
  refine h.lookup ?_ (h.kept hknown)
  rintro rfl
  rw [hunknown] at hknown
  cases hknown

theorem follows_base (hunknown : base.lookup? name = none) :
    Follows SameName (fun _ => False) fun s' t' => s' = base ∧ t' = t where
  name {text _} span htext := by
    obtain ⟨span', rfl⟩ := htext
    refine .lookupAt span span' ?_
    rintro _ _ known ⟨rfl, rfl⟩ hknown
    exact h.lookup_base hunknown hknown
  implied := by
    rintro _ _ other known ⟨rfl, rfl⟩ - hknown
    exact h.lookup_base hunknown hknown
  unknown _ hfalse := hfalse.elim
  define _ _ hfalse := hfalse.elim

theorem define {doc : String} (hother : other ≠ name) (hunknown : s.lookup? other = none) (hxy : Value.Twin false x y) :
    Instead base name stored (s.extend [(other, (Value.define other doc x).copy)])
      (t.extend [(other, (Value.define other doc y).copy)]) := by
  have hne {key : String} {known : Value} (hkey : s.lookup? key = some known) : key ≠ other := by
    rintro rfl
    rw [hunknown] at hkey
    cases hkey
  have hunknown' := h.unknown hother hunknown
  refine ⟨fun hknown => ?_, ?_, fun {key} hkey => ?_⟩
  · rw [Scope.lookup?_extend_ne (hne (h.kept hknown))]
    exact h.kept hknown
  · rw [Scope.lookup?_extend_ne (hne h.named)]
    exact h.named
  · by_cases hsame : key = other
    · subst hsame
      rw [Scope.lookup?_extend_self hunknown, Scope.lookup?_extend_self hunknown']
      have hdefined : Value.Twin false (Value.define key doc x) (Value.define key doc y) :=
        .definedLeft _ _ (.definedRight _ _ hxy)
      exact .some hdefined.copy.copy
    · rw [Scope.lookup?_extend_ne hsame, Scope.lookup?_extend_ne hsame]
      exact h.others hkey

end

end Instead

/-- A name that was unknown and stands for the value of an atom, and the atom in brackets in its place. -/
theorem Instead.follows {base : Scope} {name : String} {v stored : Value} {n : Nat} {w : World} {s₁ : Setting}
    (hunknown : base.lookup? name = none) (himplied : name ∉ impliedNames)
    (hvalue : value.eval (puller n) (base, w) = .ok v s₁)
    (hstored : ∀ {y}, Value.Twin false v y → Value.Twin false stored y) :
    Follows (Inlined name value) (· ≠ name) (Instead base name stored) where
  name {text _} span hatom := by
    unfold Inlined at hatom
    split at hatom
    · next hname =>
      subst hname
      obtain ⟨value', hlike, rfl⟩ := hatom
      intro s t w₀ x s' hst hrun w'
      obtain ⟨hlookup, rfl⟩ := lookupAt_eq_ok_iff.1 hrun
      obtain rfl := Option.some.inj (hst.named.symm.trans hlookup)
      obtain ⟨y, t', hcomes, hy, -, ht⟩ := (hst.follows_base hunknown).atom n hlike ⟨rfl, rfl⟩ hvalue w'
      refine ⟨y, t', hcomes.congr fun k => ?_, hstored hy, ?_⟩
      · rw [eval_bracketed]
      · rw [ht]
        exact hst
    · next hname =>
      obtain ⟨span', rfl⟩ := hatom
      exact .lookupAt span span' fun hst hknown => hst.lookup hname hknown
  implied hst hother hknown := by
    refine hst.lookup ?_ hknown
    rintro rfl
    exact himplied hother
  unknown hst hother hnone := hst.unknown hother hnone
  define doc hst hother hnone hxy := hst.define hother hnone hxy

end PullScript.Script
