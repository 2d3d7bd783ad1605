import PullScript.Application
import PullScript.Proofs.Eval.Act
import PullScript.Proofs.Script.Reading

namespace PullScript.Script

open Act

abbrev Setting : Type :=
  Scope × World

def Setting.hold (values : List Value) (s : Setting) : Setting :=
  (s.1, { s.2 with around := values :: s.2.around })

def Setting.letGo (s s' : Setting) : Setting :=
  (s'.1, { s'.2 with around := s.2.around })

variable (p : Puller)

mutual

inductive Atom.Means : Atom → Setting → Value → Setting → Prop
  | name {text : String} {span : Span} {s : Setting} {v : Value} :
    s.1.lookup? text = some v → Atom.Means (.name text span) s v s
  | number (n : Float) (s : Setting) : Atom.Means (.number n) s (.number n) s
  | text (content : String) (s : Setting) :
    Atom.Means (.text content) s (.textOf (Bytes.ofString content)) s
  | list {items : List Element} {s s' : Setting} {values : List Value} {elements : List Ty} :
    ItemsMean items s values s' → Value.elementTypes? values = some elements →
    Atom.Means (.list items) s (.list elements values 0) s'
  | subScript {first : Element} {rest : List Element} {s s' : Setting} {v : Value} :
    ElementsMean first rest s v s' → Atom.Means (.subScript first rest) s v s'
  | flippedOperator {op : Operator} {place span : Span} {s s₁ s' : Setting} {f flip v : Value} :
    operatorAt p op place s = .ok f s₁ → s₁.1.lookup? "flip" = some flip →
    applyTo p flip f s₁ = .ok v s' → Atom.Means (.flippedOperator op place span) s v s'
  | flipped {arg : Atom} {span : Span} {s s₁ s' : Setting} {f flip v : Value} :
    Atom.Means arg s f s₁ → s₁.1.lookup? "flip" = some flip → applyTo p flip f s₁ = .ok v s' →
    Atom.Means (.flipped arg span) s v s'
  | operator {op : Operator} {arg : Atom} {span : Span} {s s₁ s₂ s' : Setting} {x f v : Value} :
    Atom.Means arg s x s₁ → operatorAt p op span (s₁.hold [x]) = .ok f s₂ →
    applyTo p f x (s₁.letGo s₂) = .ok v s' → Atom.Means (.operator op arg span) s v s'

/-- The value of a head. A name that is defined gets a copy of the value, and must be unknown before
the value is looked at and after it. -/
inductive Head.Means : Head → Setting → Value → Setting → Prop
  | atom {value : Atom} {s s' : Setting} {v : Value} :
    Atom.Means value s v s' → Head.Means (.atom value) s v s'
  | definition {name doc : String} {span : Span} {value : Atom} {s s₁ : Setting} {v : Value}
      {scope : Scope} :
    s.1.lookup? name = none → Atom.Means value s v s₁ →
    s₁.1.define name (Value.define name doc v).copy = .ok scope →
    Head.Means (.definition name span doc value) s (Value.define name doc v) (scope, s₁.2)

inductive Element.Means : Element → Setting → Value → Setting → Prop
  | apply {head : Head} {args : List Atom} {s s₁ s' : Setting} {f v : Value} :
    Head.Means head s f s₁ → ArgsMean f args s₁ v s' → Element.Means (.apply head args) s v s'
  | andThen {head : Head} {args : List Atom} {next : Element} {s s₁ s₂ s₃ : Setting} {f v v' : Value} :
    Head.Means head s f s₁ → ArgsMean f args s₁ v s₂ → Element.Means next (s₂.hold [v]) v' s₃ →
    Element.Means (.andThen head args next) s v' (s₂.letGo s₃)

inductive ArgsMean : Value → List Atom → Setting → Value → Setting → Prop
  | nil (f : Value) (s : Setting) : ArgsMean f [] s f s
  | cons {f x y v : Value} {arg : Atom} {args : List Atom} {s s₁ s₂ s' : Setting} :
    Atom.Means arg (s.hold [f]) x s₁ → applyTo p f x (s.letGo s₁) = .ok y s₂ →
    ArgsMean y args s₂ v s' → ArgsMean f (arg :: args) s v s'

inductive ItemsMean : List Element → Setting → List Value → Setting → Prop
  | nil (s : Setting) : ItemsMean [] s [] s
  | cons {item : Element} {items : List Element} {s s₁ s₂ : Setting} {v : Value} {values : List Value} :
    Element.Means item s v s₁ → ItemsMean items (s₁.hold [v]) values s₂ →
    ItemsMean (item :: items) s (v :: values) (s₁.letGo s₂)

/-- The value of elements separated by commas: functions are chained if the first is one, and applied
to the value of the elements before otherwise. -/
inductive ElementsMean : Element → List Element → Setting → Value → Setting → Prop
  | single {first : Element} {s s' : Setting} {v : Value} :
    Element.Means first s v s' → ElementsMean first [] s v s'
  | chain {first second : Element} {rest : List Element} {s s₁ s' : Setting} {f v : Value}
      {functions : List Value} :
    Element.Means first s f s₁ → f.kind = .fn → Chained [f] (second :: rest) s₁ functions s' →
    Value.chainOf functions = .ok v → ElementsMean first (second :: rest) s v s'
  | handOn {first second : Element} {rest : List Element} {s s₁ s' : Setting} {x v : Value} :
    Element.Means first s x s₁ → x.kind ≠ .fn → HandedOn x (second :: rest) s₁ v s' →
    ElementsMean first (second :: rest) s v s'

inductive Chained : List Value → List Element → Setting → List Value → Setting → Prop
  | nil (functions : List Value) (s : Setting) : Chained functions [] s functions s
  | cons {functions functions' : List Value} {element : Element} {rest : List Element}
      {s s₁ s' : Setting} {f : Value} :
    Element.Means element (s.hold functions) f s₁ → f.kind = .fn →
    Chained (functions ++ [f]) rest (s.letGo s₁) functions' s' →
    Chained functions (element :: rest) s functions' s'

/-- The value that is made of another by further elements, each being applied to what came before. -/
inductive HandedOn : Value → List Element → Setting → Value → Setting → Prop
  | nil (x : Value) (s : Setting) : HandedOn x [] s x s
  | cons {x f y v : Value} {element : Element} {rest : List Element} {s s₁ s₂ s' : Setting} :
    Element.Means element (s.hold [x]) f s₁ → applyTo p f x (s.letGo s₁) = .ok y s₂ →
    HandedOn y rest s₂ v s' → HandedOn x (element :: rest) s v s'

end

variable {p}

variable {s s' : Setting} {v : Value}

theorem lookupAt_eq_ok_iff {name : String} {span : Span} :
    lookupAt name span s = .ok v s' ↔ s.1.lookup? name = some v ∧ s' = s := by
  unfold lookupAt
  rw [bind_of_ok look_run]
  cases hlookup : s.1.lookup? name with
  | none => simp
  | some value =>
    simp only [pure_run, EStateM.Result.ok.injEq, Option.some.injEq]
    exact and_congr_right fun _ => eq_comm

theorem holding_eq_ok_iff {α : Type} {values : List Value} {act : Act Scope α} {a : α} :
    holding values act s = .ok a s' ↔ ∃ s₁, act (s.hold values) = .ok a s₁ ∧ s' = s.letGo s₁ := by
  obtain ⟨scope, w⟩ := s
  obtain ⟨scope', w'⟩ := s'
  rw [holding_run, Result.on_eq_ok_iff]
  simp only [Setting.hold, Setting.letGo, Prod.mk.injEq, id_eq]

theorem asFunction_eq_ok_iff {f : Value} : asFunction v s = .ok f s' ↔ v.kind = .fn ∧ f = v ∧ s' = s := by
  unfold asFunction requireKind
  change (aside v _ >>= _) (s.1, s.2) = _ ↔ _
  rw [bind_run, aside_run, holding_run, bind_of_ok look_run]
  by_cases hkind : v.kind = .fn
  · simp only [hkind, if_true, pure_run, Result.on, Result.beside, EStateM.Result.ok.injEq, true_and, id_eq]
    exact and_congr eq_comm eq_comm
  · simp [hkind, Result.on, Result.beside]

theorem define_eq_ok_iff {name doc : String} {value : Value} :
    define name doc value s = .ok v s' ↔ v = Value.define name doc value ∧
      ∃ scope, s.1.define name v.copy = .ok scope ∧ s' = (scope, s.2) := by
  unfold define
  rw [bind_of_ok look_run, bind_eq_ok_iff]
  constructor
  · rintro ⟨scope, s₁, hdefine, hput⟩
    obtain ⟨hdefine, rfl⟩ := ofExcept_eq_ok_iff.1 hdefine
    rw [bind_of_ok (put_run scope)] at hput
    cases hput
    exact ⟨rfl, scope, hdefine, rfl⟩
  · rintro ⟨rfl, scope, hdefine, rfl⟩
    exact ⟨scope, s, ofExcept_eq_ok_iff.2 ⟨hdefine, rfl⟩, rfl⟩

theorem listOf_eq_ok_iff {items : List Value} :
    listOf items s = .ok v s' ↔
      ∃ elements, Value.elementTypes? items = some elements ∧ v = .list elements items 0 ∧ s' = s := by
  unfold listOf
  cases Value.elementTypes? items with
  | none =>
    have hnone : (ofOption none : Act Scope (List Ty)) s = .error .outOfFuel s := rfl
    rw [bind_of_error hnone]
    simp
  | some elements =>
    simp only [ofOption, pure_bind, pure_run, EStateM.Result.ok.injEq, Option.some.injEq, exists_eq_left']
    exact and_congr eq_comm eq_comm

theorem Flow.result_stages {functions : List Value} (h : 2 ≤ functions.length) :
    (Flow.stages functions).result = (Act.ofExcept (Value.chainOf functions) : Act Scope Value) := by
  match functions, h with
  | _ :: _ :: _, _ => rfl

theorem Chained.length {functions functions' : List Value} {rest : List Element}
    (h : Chained p functions rest s functions' s') : functions'.length = functions.length + rest.length := by
  induction rest generalizing functions s with
  | nil =>
    cases h
    rfl
  | cons element rest ih =>
    cases h with
    | cons _ _ h =>
      have hlength := ih h
      simp only [List.length_append, List.length_cons, List.length_nil] at hlength ⊢
      omega

mutual

theorem Atom.Means.eval {atom : Atom} {s s' : Setting} {v : Value} : atom.Means p s v s' →
    atom.eval p s = .ok v s'
  | .name h => lookupAt_eq_ok_iff.2 ⟨h, rfl⟩
  | .number _ _ => rfl
  | .text _ _ => rfl
  | .list hitems htypes =>
    (bind_of_ok hitems.eval _).trans (listOf_eq_ok_iff.2 ⟨_, htypes, rfl, rfl⟩)
  | .subScript h => h.eval
  | .flippedOperator hop hflip happly => by
    rw [Atom.eval, bind_of_ok hop, bind_of_ok (lookupAt_eq_ok_iff.2 ⟨hflip, rfl⟩)]
    exact happly
  | .flipped harg hflip happly => by
    rw [Atom.eval, bind_of_ok harg.eval, bind_of_ok (lookupAt_eq_ok_iff.2 ⟨hflip, rfl⟩)]
    exact happly
  | .operator harg hop happly => by
    rw [Atom.eval, bind_of_ok harg.eval, bind_of_ok (holding_eq_ok_iff.2 ⟨_, hop, rfl⟩)]
    exact happly

theorem Head.Means.eval : ∀ {head : Head} {s s' : Setting} {v : Value}, head.Means p s v s' →
    head.eval p s = .ok v s'
  | _, _, _, _, .atom h => h.eval
  | _, s, _, _, .definition hunknown hvalue hdefine => by
    rw [Head.eval, bind_of_ok look_run]
    simp only [hunknown, Option.isSome_none, Bool.false_eq_true, if_false]
    rw [bind_of_ok hvalue.eval]
    exact define_eq_ok_iff.2 ⟨rfl, _, hdefine, rfl⟩

theorem Element.Means.eval : ∀ {element : Element} {s s' : Setting} {v : Value},
    element.Means p s v s' → element.eval p s = .ok v s'
  | _, _, _, _, .apply hhead hargs => by
    rw [Element.eval, bind_of_ok hhead.eval]
    exact hargs.eval
  | _, _, _, _, .andThen hhead hargs hnext => by
    rw [Element.eval, bind_of_ok hhead.eval, bind_of_ok hargs.eval]
    exact holding_eq_ok_iff.2 ⟨_, hnext.eval, rfl⟩

theorem ArgsMean.eval {f : Value} {args : List Atom} {s s' : Setting} {v : Value} :
    ArgsMean p f args s v s' → applyAll p f args s = .ok v s'
  | .nil _ _ => rfl
  | .cons harg happly hargs => by
    rw [applyAll, bind_of_ok (holding_eq_ok_iff.2 ⟨_, harg.eval, rfl⟩), bind_of_ok happly]
    exact hargs.eval

theorem ItemsMean.eval {items : List Element} {s s' : Setting} {values : List Value} :
    ItemsMean p items s values s' → evalAll p items s = .ok values s'
  | .nil _ => rfl
  | .cons hitem hitems => by
    rw [evalAll, bind_of_ok hitem.eval, bind_of_ok (holding_eq_ok_iff.2 ⟨_, hitems.eval, rfl⟩)]
    rfl

theorem ElementsMean.eval : ∀ {first : Element} {rest : List Element} {s s' : Setting} {v : Value},
    ElementsMean p first rest s v s' →
    (do (← evalRest p (.start (← first.eval p)) rest).result : Act Scope Value) s = .ok v s'
  | _, _, _, _, v, .single h => by
    rw [bind_of_ok h.eval]
    unfold Flow.start
    split <;> rfl
  | _, _, _, _, _, .chain hfirst hkind hrest hchain => by
    rw [bind_of_ok hfirst.eval, Flow.start, if_pos hkind, bind_of_ok hrest.eval,
      Flow.result_stages (by
        rw [hrest.length]
        simp only [List.length_cons]
        omega)]
    exact ofExcept_eq_ok_iff.2 ⟨hchain, rfl⟩
  | _, _, _, _, _, .handOn hfirst hkind hrest => by
    rw [bind_of_ok hfirst.eval, Flow.start, if_neg hkind, bind_of_ok hrest.eval]
    rfl

theorem Chained.eval {functions functions' : List Value} {rest : List Element} {s s' : Setting} :
    Chained p functions rest s functions' s' →
    evalRest p (.stages functions) rest s = .ok (.stages functions') s'
  | .nil _ _ => rfl
  | .cons helement hkind hrest => by
    refine (bind_of_ok (holding_eq_ok_iff.2 ⟨_, helement.eval, rfl⟩) _).trans ?_
    rw [Flow.next, bind_assoc, bind_of_ok (asFunction_eq_ok_iff.2 ⟨hkind, rfl, rfl⟩)]
    exact hrest.eval

theorem HandedOn.eval {x v : Value} {rest : List Element} {s s' : Setting} :
    HandedOn p x rest s v s' → evalRest p (.value x) rest s = .ok (.value v) s'
  | .nil _ _ => rfl
  | .cons helement happly hrest => by
    refine (bind_of_ok (holding_eq_ok_iff.2 ⟨_, helement.eval, rfl⟩) _).trans ?_
    rw [Flow.next, bind_assoc, bind_of_ok happly]
    exact hrest.eval

end

theorem elementsMean_of_eval {first : Element} {rest : List Element} {x v : Value} {flow : Flow}
    {s s₁ s₂ s' : Setting} (hfirst : first.Means p s x s₁)
    (hchained : ∀ {functions : List Value}, evalRest p (.stages functions) rest s₁ = .ok flow s₂ →
      ∃ functions', flow = .stages functions' ∧ Chained p functions rest s₁ functions' s₂)
    (hhanded : ∀ {x : Value}, evalRest p (.value x) rest s₁ = .ok flow s₂ →
      ∃ y, flow = .value y ∧ HandedOn p x rest s₁ y s₂)
    (hrest : evalRest p (.start x) rest s₁ = .ok flow s₂) (hresult : flow.result s₂ = .ok v s') :
    ElementsMean p first rest s v s' := by
  unfold Flow.start at hrest
  split at hrest
  · next hkind =>
    obtain ⟨functions, rfl, hstages⟩ := hchained hrest
    have hlength := hstages.length
    cases rest with
    | nil =>
      cases hstages
      cases hresult
      exact .single hfirst
    | cons second rest =>
      rw [Flow.result_stages (by simp only [List.length_cons] at hlength; omega)] at hresult
      obtain ⟨hchain, rfl⟩ := ofExcept_eq_ok_iff.1 hresult
      exact .chain hfirst hkind hstages hchain
  · next hkind =>
    obtain ⟨y, rfl, hvalue⟩ := hhanded hrest
    cases hresult
    cases rest with
    | nil =>
      cases hvalue
      exact .single hfirst
    | cons second rest => exact .handOn hfirst hkind hvalue

mutual

theorem Atom.means_of_eval {s s' : Setting} {v : Value} : ∀ {atom : Atom},
    atom.eval p s = .ok v s' → atom.Means p s v s'
  | .name text span, h => by
    obtain ⟨hlookup, rfl⟩ := lookupAt_eq_ok_iff.1 h
    exact .name hlookup
  | .number n, h => by
    cases h
    exact .number n s
  | .text content, h => by
    cases h
    exact .text content s
  | .list items, h => by
    obtain ⟨values, s₁, hitems, h⟩ := bind_eq_ok_iff.1 h
    obtain ⟨elements, htypes, rfl, rfl⟩ := listOf_eq_ok_iff.1 h
    exact .list (itemsMean_of_eval hitems) htypes
  | .subScript first rest, h => by
    obtain ⟨x, s₁, hfirst, h⟩ := bind_eq_ok_iff.1 h
    obtain ⟨flow, s₂, hrest, hresult⟩ := bind_eq_ok_iff.1 h
    exact .subScript (elementsMean_of_eval (Element.means_of_eval hfirst) chained_of_eval
      handedOn_of_eval hrest hresult)
  | .unclosed first rest found, h => by
    obtain ⟨f, s₁, -, h⟩ := bind_eq_ok_iff.1 h
    obtain ⟨flow, s₂, -, h⟩ := bind_eq_ok_iff.1 h
    obtain ⟨x, s₃, -, h⟩ := bind_eq_ok_iff.1 h
    cases h
  | .flippedOperator op place span, h => by
    obtain ⟨f, s₁, hop, h⟩ := bind_eq_ok_iff.1 h
    obtain ⟨flip, s₂, hflip, happly⟩ := bind_eq_ok_iff.1 h
    obtain ⟨hflip, rfl⟩ := lookupAt_eq_ok_iff.1 hflip
    exact .flippedOperator hop hflip happly
  | .flipped arg span, h => by
    obtain ⟨f, s₁, harg, h⟩ := bind_eq_ok_iff.1 h
    obtain ⟨flip, s₂, hflip, happly⟩ := bind_eq_ok_iff.1 h
    obtain ⟨hflip, rfl⟩ := lookupAt_eq_ok_iff.1 hflip
    exact .flipped (Atom.means_of_eval harg) hflip happly
  | .operator op arg span, h => by
    obtain ⟨x, s₁, harg, h⟩ := bind_eq_ok_iff.1 h
    obtain ⟨f, s₂, hop, happly⟩ := bind_eq_ok_iff.1 h
    obtain ⟨s₃, hheld, rfl⟩ := holding_eq_ok_iff.1 hop
    exact .operator (Atom.means_of_eval harg) hheld happly
  | .broken found, h => by cases h

theorem Head.means_of_eval {s s' : Setting} {v : Value} : ∀ {head : Head},
    head.eval p s = .ok v s' → head.Means p s v s'
  | .atom value, h => .atom (Atom.means_of_eval h)
  | .definition name span doc value, h => by
    rw [Head.eval, bind_of_ok look_run] at h
    split at h
    · cases h
    · next hunknown =>
      obtain ⟨x, s₁, hvalue, h⟩ := bind_eq_ok_iff.1 h
      obtain ⟨rfl, scope, hdefine, rfl⟩ := define_eq_ok_iff.1 h
      have hnone : s.1.lookup? name = none := by simpa using hunknown
      exact .definition hnone (Atom.means_of_eval hvalue) hdefine

theorem Element.means_of_eval {s s' : Setting} {v : Value} : ∀ {element : Element},
    element.eval p s = .ok v s' → element.Means p s v s'
  | .apply head args, h => by
    obtain ⟨f, s₁, hhead, hargs⟩ := bind_eq_ok_iff.1 h
    exact .apply (Head.means_of_eval hhead) (argsMean_of_eval hargs)
  | .andThen head args next, h => by
    obtain ⟨f, s₁, hhead, h⟩ := bind_eq_ok_iff.1 h
    obtain ⟨x, s₂, hargs, hnext⟩ := bind_eq_ok_iff.1 h
    obtain ⟨s₃, hheld, rfl⟩ := holding_eq_ok_iff.1 hnext
    exact .andThen (Head.means_of_eval hhead) (argsMean_of_eval hargs) (Element.means_of_eval hheld)

theorem argsMean_of_eval {f v : Value} {s s' : Setting} : ∀ {args : List Atom},
    applyAll p f args s = .ok v s' → ArgsMean p f args s v s'
  | [], h => by
    cases h
    exact .nil f s
  | arg :: args, h => by
    obtain ⟨x, s₁, harg, h⟩ := bind_eq_ok_iff.1 h
    obtain ⟨s₂, hheld, rfl⟩ := holding_eq_ok_iff.1 harg
    obtain ⟨y, s₃, happly, hargs⟩ := bind_eq_ok_iff.1 h
    exact .cons (Atom.means_of_eval hheld) happly (argsMean_of_eval hargs)

theorem itemsMean_of_eval {s s' : Setting} {values : List Value} : ∀ {items : List Element},
    evalAll p items s = .ok values s' → ItemsMean p items s values s'
  | [], h => by
    cases h
    exact .nil s
  | item :: items, h => by
    obtain ⟨v, s₁, hitem, h⟩ := bind_eq_ok_iff.1 h
    obtain ⟨others, s₂, hitems, h⟩ := bind_eq_ok_iff.1 h
    obtain ⟨s₃, hheld, rfl⟩ := holding_eq_ok_iff.1 hitems
    cases h
    exact .cons (Element.means_of_eval hitem) (itemsMean_of_eval hheld)

theorem chained_of_eval {functions : List Value} {flow : Flow} {s s' : Setting} :
    ∀ {rest : List Element}, evalRest p (.stages functions) rest s = .ok flow s' →
    ∃ functions', flow = .stages functions' ∧ Chained p functions rest s functions' s'
  | [], h => by
    cases h
    exact ⟨functions, rfl, .nil functions s⟩
  | element :: rest, h => by
    obtain ⟨f, s₁, helement, h⟩ := bind_eq_ok_iff.1 h
    obtain ⟨s₂, hheld, rfl⟩ := holding_eq_ok_iff.1 helement
    rw [Flow.next, bind_assoc] at h
    obtain ⟨g, s₃, hfunction, h⟩ := bind_eq_ok_iff.1 h
    obtain ⟨hkind, rfl, rfl⟩ := asFunction_eq_ok_iff.1 hfunction
    obtain ⟨functions', rfl, hrest⟩ := chained_of_eval h
    exact ⟨functions', rfl, .cons (Element.means_of_eval hheld) hkind hrest⟩

theorem handedOn_of_eval {x : Value} {flow : Flow} {s s' : Setting} : ∀ {rest : List Element},
    evalRest p (.value x) rest s = .ok flow s' →
    ∃ v, flow = .value v ∧ HandedOn p x rest s v s'
  | [], h => by
    cases h
    exact ⟨x, rfl, .nil x s⟩
  | element :: rest, h => by
    obtain ⟨f, s₁, helement, h⟩ := bind_eq_ok_iff.1 h
    obtain ⟨s₂, hheld, rfl⟩ := holding_eq_ok_iff.1 helement
    rw [Flow.next, bind_assoc] at h
    obtain ⟨y, s₃, happly, h⟩ := bind_eq_ok_iff.1 h
    obtain ⟨v, rfl, hrest⟩ := handedOn_of_eval h
    exact ⟨v, rfl, .cons (Element.means_of_eval hheld) happly hrest⟩

end

mutual

theorem Atom.Means.whole {atom : Atom} {s s' : Setting} {v : Value} : atom.Means p s v s' →
    atom.Whole
  | .name _ => trivial
  | .number _ _ => trivial
  | .text _ _ => trivial
  | .list hitems _ => hitems.whole
  | .subScript h => h.whole
  | .flippedOperator _ _ _ => trivial
  | .flipped harg _ _ => harg.whole
  | .operator harg _ _ => harg.whole

theorem Head.Means.whole : ∀ {head : Head} {s s' : Setting} {v : Value}, head.Means p s v s' →
    head.Whole
  | _, _, _, _, .atom h => h.whole
  | _, _, _, _, .definition _ hvalue _ => hvalue.whole

theorem Element.Means.whole : ∀ {element : Element} {s s' : Setting} {v : Value},
    element.Means p s v s' → element.Whole
  | _, _, _, _, .apply hhead hargs => ⟨hhead.whole, hargs.whole⟩
  | _, _, _, _, .andThen hhead hargs hnext => ⟨hhead.whole, hargs.whole, hnext.whole⟩

theorem ArgsMean.whole {f : Value} {args : List Atom} {s s' : Setting} {v : Value} :
    ArgsMean p f args s v s' → ArgsWhole args
  | .nil _ _ => trivial
  | .cons harg _ hargs => ⟨harg.whole, hargs.whole⟩

theorem ItemsMean.whole {items : List Element} {s s' : Setting} {values : List Value} :
    ItemsMean p items s values s' → AllWhole items
  | .nil _ => trivial
  | .cons hitem hitems => ⟨hitem.whole, hitems.whole⟩

theorem ElementsMean.whole {first : Element} {rest : List Element} {s s' : Setting} {v : Value} :
    ElementsMean p first rest s v s' → first.Whole ∧ AllWhole rest
  | .single hfirst => ⟨hfirst.whole, trivial⟩
  | .chain hfirst _ hrest _ => ⟨hfirst.whole, hrest.whole⟩
  | .handOn hfirst _ hrest => ⟨hfirst.whole, hrest.whole⟩

theorem Chained.whole {functions functions' : List Value} {rest : List Element} {s s' : Setting} :
    Chained p functions rest s functions' s' → AllWhole rest
  | .nil _ _ => trivial
  | .cons helement _ hrest => ⟨helement.whole, hrest.whole⟩

theorem HandedOn.whole {x v : Value} {rest : List Element} {s s' : Setting} : HandedOn p x rest s v s' → AllWhole rest
  | .nil _ _ => trivial
  | .cons helement _ hrest => ⟨helement.whole, hrest.whole⟩

end

end PullScript.Script

namespace PullScript.Application

open Act Script

theorem onScope_run {α : Type} (act : Act Scope α) (app : Application) (w : World) :
    onScope act (app, w) = Result.on (fun scope => { app with scope })
      (fun w' => { w' with around := w.around }) (act (Setting.hold (held app.root) (app.scope, w))) := by
  have hheld : held { app with scope := default } = held app.root := List.append_nil _
  unfold onScope
  rw [bind_of_ok look_run]
  simp only [within]
  rw [zoom_run, holding_run, hheld]
  simp only [Setting.hold]
  cases act (app.scope, { w with around := held app.root :: w.around }) <;> rfl

end PullScript.Application
