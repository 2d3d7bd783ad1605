import PullScript.Proofs.Ty.Params
import PullScript.Proofs.Value.Copy
import PullScript.Value.Inputs

namespace PullScript

/-- The head constructor that the type of a result must have; an item of a list may be of any type. -/
def Task.wanted {α : Type} : Task α → Option Ty.Kind
  | .calculate .. => some .num
  | .render .. | .encode _ | .concat _ | .join _ => some .str
  | .bytes _ | .units .. | .split _ | .map | .repeat | .zipWith | .take _ | .drop _ | .tail _
  | .init _ | .reverse _ => some .lst
  | .pick .. => none
  | .const | .flip => some .arrow

def Task.keepsValues {α : Type} : Task α → Bool
  | .join _ | .init _ | .reverse _ | .pick .. => true
  | _ => false

/-- The head constructor that the type of a builtin's result must have. An argument that is handed on
may be of any type. -/
def Job.wanted (job : Job) : Option Ty.Kind :=
  match job.start with
  | .inl _ => none
  | .inr task => task.wanted

namespace Ty

def suits (wanted : Option Ty.Kind) (ty : Ty) : Bool :=
  wanted.all (· = ty.kind)

def leadsTo (wanted : Option Ty.Kind) : Nat → Ty → Bool
  | 0, ty => ty.suits wanted
  | more + 1, .arrow _ result => leadsTo wanted more result
  | _ + 1, _ => false

theorem suits_of_kind_eq {wanted : Option Ty.Kind} {ty ty' : Ty} (hwanted : wanted ≠ some .unknown)
    (h : ty.suits wanted = true) (hkind : ty.kind ≠ .unknown → ty'.kind = ty.kind) : ty'.suits wanted = true := by
  cases wanted with
  | none => rfl
  | some kind =>
    have hty : kind = ty.kind := by simpa [suits] using h
    have hne : ty.kind ≠ .unknown := fun hunknown => hwanted (by rw [hty, hunknown])
    simp [suits, hkind hne, hty]

theorem leadsTo_build {wanted : Option Ty.Kind} (hwanted : wanted ≠ some .unknown) (m : Match)
    {more : Nat} {ty : Ty} (h : ty.leadsTo wanted more = true) : (m.build ty).leadsTo wanted more = true := by
  induction more generalizing ty with
  | zero => exact suits_of_kind_eq hwanted h (kind_build m)
  | succ more ih =>
    cases ty with
    | arrow arg result => exact ih h
    | _ => cases h

theorem leadsTo_qualified {wanted : Option Ty.Kind} (hwanted : wanted ≠ some .unknown) (owner : String)
    {more : Nat} {ty : Ty} (h : ty.leadsTo wanted more = true) : (ty.qualified owner).leadsTo wanted more = true := by
  induction more generalizing ty with
  | zero => exact suits_of_kind_eq hwanted h fun _ => kind_qualified owner ty
  | succ more ih =>
    cases ty with
    | arrow arg result => exact ih h
    | _ => cases h

end Ty

theorem Job.wanted_ne_unknown (job : Job) : job.wanted ≠ some .unknown := by
  cases job <;> simp [wanted, start, Task.wanted]

/-- A builtin of a type that has some of its arguments: it waits for more, after which the type is
that of its result, and it does not describe its arguments. -/
structure Builtin.Ready (builtin : Builtin) (ty : Ty) (bound : Nat) : Prop where
  waits : bound < builtin.arity
  leads : ty.leadsTo builtin.job.wanted (builtin.arity - bound) = true
  noDescription : ∀ k, builtin.job ≠ .give .description k

mutual

/-- Two values that differ at most in the names that they and their parts were given. Without ports
they have nothing to do with the world. -/
inductive Value.Twin (ports : Bool) : Value → Value → Prop
  | number (n : Float) : Value.Twin ports (.number n) (.number n)
  | metered (meter : Nat) : ports = true → Value.Twin ports (.metered meter) (.metered meter)
  | text (bytes : Bytes) (read : Bool) : Value.Twin ports (.text bytes read) (.text bytes read)
  | chunks (parts : List Bytes) (position : Nat) :
    Value.Twin ports (.chunks parts position) (.chunks parts position)
  | input (tap offset : Nat) (primary : Bool) : ports = true →
    Value.Twin ports (.input tap offset primary) (.input tap offset primary)
  | numberText {source source' : Option Value} (once : Once) : Value.OptionTwin ports source source' →
    Value.Twin ports (.numberText source once) (.numberText source' once)
  | listText {source source' : Value} {item item' : Option Value} (separator : Bytes)
      (started : Bool) : Value.Twin ports source source' → Value.OptionTwin ports item item' →
    Value.Twin ports (.listText source ⟨separator, item, started⟩)
      (.listText source' ⟨separator, item', started⟩)
  | list {items items' : List Value} (elements : List Ty) (position : Nat) :
    Value.AllTwin ports items items' →
    Value.Twin ports (.list elements items position) (.list elements items' position)
  | recast {ty : Ty} {source source' : Value} (position : Nat) : ty.kind = .lst →
    Value.Twin ports source source' →
    Value.Twin ports (.recast ty source position) (.recast ty source' position)
  | clusters {source source' : Value} (cutter : Cutter) : Value.Twin ports source source' →
    Value.Twin ports (.clusters source cutter) (.clusters source' cutter)
  | chain {ty : Ty} {stages stages' : List Value} : ty.kind = .arrow →
    Value.AllTwin ports stages stages' → Value.Twin ports (.chain ty stages) (.chain ty stages')
  | output (sink : Nat) : ports = true → Value.Twin ports (.output sink) (.output sink)
  | curried {builtin : Builtin} {ty : Ty} {args args' : List Value} : builtin.Ready ty args.length →
    Value.AllTwin ports args args' →
    Value.Twin ports (.curried builtin ty args) (.curried builtin ty args')
  | suspended {name : String} {ty : Ty} {args args' : List Value} {task task' : Task Value} :
    ty.suits task.wanted = true → Value.AllTwin ports args args' → Value.TaskTwin ports task task' →
    Value.Twin ports (.suspended name ty args task) (.suspended name ty args' task')
  | definedLeft {a b : Value} (name doc : String) : Value.Twin ports a b →
    Value.Twin ports (.defined name doc a) b
  | definedRight {a b : Value} (name doc : String) : Value.Twin ports a b →
    Value.Twin ports a (.defined name doc b)

inductive Value.OptionTwin (ports : Bool) : Option Value → Option Value → Prop
  | none : Value.OptionTwin ports none none
  | some {a b : Value} : Value.Twin ports a b → Value.OptionTwin ports (some a) (some b)

inductive Value.AllTwin (ports : Bool) : List Value → List Value → Prop
  | nil : Value.AllTwin ports [] []
  | cons {a b : Value} {as bs : List Value} : Value.Twin ports a b → Value.AllTwin ports as bs →
    Value.AllTwin ports (a :: as) (b :: bs)

inductive Value.TaskTwin (ports : Bool) : Task Value → Task Value → Prop
  | same {task : Task Value} : task.keepsValues = false → Value.TaskTwin ports task task
  | join : Value.TaskTwin ports (.join none) (.join none)
  | joining {item item' : Option Value} (separator : Bytes) (started : Bool) :
    Value.OptionTwin ports item item' →
    Value.TaskTwin ports (.join (some ⟨separator, item, started⟩))
      (.join (some ⟨separator, item', started⟩))
  | init {held held' : Option Value} (started : Bool) : Value.OptionTwin ports held held' →
    Value.TaskTwin ports (.init ⟨held, started⟩) (.init ⟨held', started⟩)
  | reverse (position : Nat) :
    Value.TaskTwin ports (.reverse ⟨none, position⟩) (.reverse ⟨none, position⟩)
  | reversing {items items' : List Value} (position : Nat) : Value.AllTwin ports items items' →
    Value.TaskTwin ports (.reverse ⟨some items, position⟩) (.reverse ⟨some items', position⟩)
  | pick {item item' : Option Value} (choice : Choice) : Value.OptionTwin ports item item' →
    Value.TaskTwin ports (.pick choice item) (.pick choice item')

end

namespace Value

variable {ports : Bool}

namespace AllTwin

variable {as bs : List Value}

section

variable (h : AllTwin ports as bs)
include h

theorem length_eq : as.length = bs.length := by
  induction as generalizing bs with
  | nil =>
    cases h
    rfl
  | cons a as ih =>
    cases h with
    | cons _ hrest => simp only [List.length_cons, ih hrest]

theorem getElem? (k : Nat) : OptionTwin ports as[k]? bs[k]? := by
  induction as generalizing bs k with
  | nil =>
    cases h
    exact .none
  | cons a as ih =>
    cases h with
    | cons hfirst hrest =>
      cases k with
      | zero => exact .some hfirst
      | succ k => simpa only [List.getElem?_cons_succ] using ih hrest k

theorem set {a b : Value} (k : Nat) (hab : Twin ports a b) :
    AllTwin ports (as.set k a) (bs.set k b) := by
  induction as generalizing bs k with
  | nil =>
    cases h
    exact .nil
  | cons a as ih =>
    cases h with
    | cons hfirst hrest =>
      cases k with
      | zero => exact .cons hab hrest
      | succ k => exact .cons hfirst (ih hrest k)

theorem append {cs ds : List Value} (hmore : AllTwin ports cs ds) :
    AllTwin ports (as ++ cs) (bs ++ ds) := by
  induction as generalizing bs with
  | nil =>
    cases h
    exact hmore
  | cons a as ih =>
    cases h with
    | cons hfirst hrest => exact .cons hfirst (ih hrest)

end

theorem singleton {a b : Value} (h : Twin ports a b) : AllTwin ports [a] [b] :=
  .cons h .nil

theorem self {values : List Value} (h : ∀ value ∈ values, Twin ports value value) : AllTwin ports values values := by
  induction values with
  | nil => exact .nil
  | cons value values ih =>
    exact .cons (h value List.mem_cons_self) (ih fun other hother => h other (List.mem_cons_of_mem _ hother))

end AllTwin

theorem TaskTwin.wanted_eq {task task' : Task Value} (h : TaskTwin ports task task') :
    task.wanted = task'.wanted := by
  cases h <;> rfl

theorem TaskTwin.kind_eq {task task' : Task Value} (h : TaskTwin ports task task') (ty : Ty) :
    task.kind ty = task'.kind ty := by
  cases h <;> rfl

theorem Twin.kind_eq {a b : Value} : Twin ports a b → a.kind = b.kind
  | .suspended _ _ htask => htask.kind_eq _
  | .definedLeft _ _ h => h.kind_eq
  | .definedRight _ _ h => h.kind_eq
  | .number _ | .metered .. | .text .. | .chunks .. | .input ..
  | .numberText .. | .listText .. | .list .. | .recast ..
  | .clusters .. | .chain .. | .output .. | .curried .. => rfl

theorem Twin.ty_eq {a b : Value} : Twin ports a b → a.ty = b.ty
  | .listText _ _ hsource _ => congrArg (fun ty : Ty => Ty.str ty.isEndless) hsource.ty_eq
  | .clusters _ hsource =>
    congrArg (fun ty : Ty => Ty.listOf [.str false] ty.isEndless) hsource.ty_eq
  | .definedLeft _ _ h => h.ty_eq
  | .definedRight _ _ h => h.ty_eq
  | .number _ | .metered .. | .text .. | .chunks .. | .input ..
  | .numberText .. | .list .. | .recast .. | .chain .. | .output ..
  | .curried .. | .suspended .. => rfl

theorem AllTwin.allCompatible?_eq {as bs : List Value} (h : AllTwin ports as bs) (first : Ty) :
    allCompatible? first as = allCompatible? first bs := by
  induction as generalizing bs with
  | nil =>
    cases h
    rfl
  | cons a as ih =>
    cases h with
    | cons hfirst hrest => simp only [allCompatible?, hfirst.ty_eq, ih hrest]

theorem AllTwin.elementTypes?_eq {as bs : List Value} (h : AllTwin ports as bs) :
    elementTypes? as = elementTypes? bs := by
  cases h with
  | nil => rfl
  | cons hfirst hrest => simp only [elementTypes?, hfirst.ty_eq, hrest.allCompatible?_eq]

theorem AllTwin.chainOf {as bs : List Value} {a : Value} (h : AllTwin ports as bs)
    (ha : Value.chainOf as = .ok a) : ∃ b, Value.chainOf bs = .ok b ∧ Twin ports a b := by
  have hhead := h.getElem? 0
  have hlast := h.getElem? (as.length - 1)
  have hstages (ty : Ty) (hty : ty.kind = .arrow) : Twin ports (.chain ty as) (.chain ty bs) := .chain hty h
  unfold Value.chainOf at ha ⊢
  rw [List.head?_eq_getElem?, List.getLast?_eq_getElem?] at ha ⊢
  rw [← h.length_eq]
  generalize as[0]? = first, as[as.length - 1]? = last at ha hhead hlast
  generalize bs[0]? = first', bs[as.length - 1]? = last' at hhead hlast ⊢
  cases hhead with
  | none => cases ha
  | some hfirst =>
    cases hlast with
    | none => cases ha
    | some hlast =>
      simp only [← hfirst.ty_eq, ← hlast.ty_eq]
      dsimp only at ha
      split at ha
      · cases ha
        exact ⟨_, rfl, hstages _ rfl⟩
      · cases ha

theorem chainOf_twin {stages : List Value} {value : Value}
    (hstages : ∀ stage ∈ stages, Twin ports stage stage) (h : chainOf stages = .ok value) :
    Twin ports value value := by
  obtain ⟨other, hother, htwin⟩ := (AllTwin.self hstages).chainOf h
  obtain rfl := Except.ok.inj (h.symm.trans hother)
  exact htwin

mutual

theorem Twin.symm {a b : Value} : Twin ports a b → Twin ports b a
  | .number n => .number n
  | .metered meter h => .metered meter h
  | .text bytes read => .text bytes read
  | .chunks parts position => .chunks parts position
  | .input tap offset primary h => .input tap offset primary h
  | .numberText once h => .numberText once h.symm
  | .listText separator started hsource hitem =>
    .listText separator started hsource.symm hitem.symm
  | .list elements position h => .list elements position h.symm
  | .recast position hty h => .recast position hty h.symm
  | .clusters cutter h => .clusters cutter h.symm
  | .chain hty h => .chain hty h.symm
  | .output sink h => .output sink h
  | .curried hready h => .curried (h.length_eq ▸ hready) h.symm
  | .suspended hsuits hargs htask =>
    .suspended (htask.wanted_eq ▸ hsuits) hargs.symm htask.symm
  | .definedLeft name doc h => .definedRight name doc h.symm
  | .definedRight name doc h => .definedLeft name doc h.symm

theorem OptionTwin.symm {a b : Option Value} : OptionTwin ports a b → OptionTwin ports b a
  | .none => .none
  | .some h => .some h.symm

theorem AllTwin.symm {as bs : List Value} : AllTwin ports as bs → AllTwin ports bs as
  | .nil => .nil
  | .cons h hrest => .cons h.symm hrest.symm

theorem TaskTwin.symm {task task' : Task Value} : TaskTwin ports task task' → TaskTwin ports task' task
  | .same h => .same h
  | .join => .join
  | .joining separator started h => .joining separator started h.symm
  | .init started h => .init started h.symm
  | .reverse position => .reverse position
  | .reversing position h => .reversing position h.symm
  | .pick choice h => .pick choice h.symm

end

theorem TaskTwin.restarted {task task' : Task Value} (h : TaskTwin ports task task') :
    TaskTwin ports task.restarted task'.restarted := by
  cases h with
  | @same task h => cases task <;> first | exact .same rfl | cases h
  | join => exact .join
  | joining => exact .join
  | init => exact .init false .none
  | reverse => exact .reverse 0
  | reversing => exact .reverse 0
  | pick choice => exact .pick choice .none

theorem wanted_restarted (task : Task Value) : task.restarted.wanted = task.wanted := by
  cases task <;> rfl

mutual

theorem Twin.copy {a b : Value} : Twin ports a b → Twin ports a.copy b.copy
  | .number n => .number n
  | .metered meter h => .metered meter h
  | .text bytes _ => .text bytes false
  | .chunks parts _ => .chunks parts 0
  | .input tap offset _ h => .input tap offset false h
  | .numberText once h => .numberText _ h.copy
  | .listText separator _ hsource _ => .listText separator false hsource.copy .none
  | .list elements _ h => .list elements 0 h.copy
  | .recast _ hty h => .recast 0 hty h.copy
  | .clusters _ h => .clusters {} h.copy
  | .chain hty h => .chain hty h.copy
  | .output sink h => .output sink h
  | .curried hready h => .curried ((length_copyAll _).symm ▸ hready) h.copy
  | .suspended hsuits hargs htask =>
    .suspended ((wanted_restarted _).symm ▸ hsuits) hargs.copy htask.restarted
  | .definedLeft name doc h => .definedLeft name doc h.copy
  | .definedRight name doc h => .definedRight name doc h.copy

theorem OptionTwin.copy {a b : Option Value} : OptionTwin ports a b →
    OptionTwin ports (copyOption a) (copyOption b)
  | .none => .none
  | .some h => .some h.copy

theorem AllTwin.copy {as bs : List Value} : AllTwin ports as bs → AllTwin ports (copyAll as) (copyAll bs)
  | .nil => .nil
  | .cons h hrest => .cons h.copy hrest.copy

end

theorem usesAll_append (values others : List Value) :
    usesAll (values ++ others) = usesAll values ++ usesAll others := by
  induction values with
  | nil => rfl
  | cons value values ih => simp only [List.cons_append, usesAll, ih, List.append_assoc]

mutual

theorem Twin.usage {a b : Value} : Twin ports a b → a.uses = b.uses ∧ (ports = false → b.uses = [])
  | .numberText _ h => h.usage
  | .listText _ _ hsource hitem => by
    simp +contextual [uses, usesJoiner, hsource.usage.1, hitem.usage.1, hsource.usage.2, hitem.usage.2]
  | .list _ _ h => h.usage
  | .recast _ _ h => h.usage
  | .clusters _ h => h.usage
  | .chain _ h => h.usage
  | .curried _ h => h.usage
  | .suspended _ hargs htask => by
    simp +contextual [uses, hargs.usage.1, htask.usage.1, hargs.usage.2, htask.usage.2]
  | .definedLeft _ _ h => h.usage
  | .definedRight _ _ h => h.usage
  | .number _ | .text .. | .chunks .. => ⟨rfl, fun _ => rfl⟩
  | .metered _ h | .input _ _ _ h | .output _ h => ⟨rfl, fun hnone => by cases h.symm.trans hnone⟩

theorem OptionTwin.usage {a b : Option Value} : OptionTwin ports a b →
    usesOption a = usesOption b ∧ (ports = false → usesOption b = [])
  | .none => ⟨rfl, fun _ => rfl⟩
  | .some h => h.usage

theorem AllTwin.usage {as bs : List Value} : AllTwin ports as bs →
    usesAll as = usesAll bs ∧ (ports = false → usesAll bs = [])
  | .nil => ⟨rfl, fun _ => rfl⟩
  | .cons h hrest => by
    simp +contextual [usesAll, h.usage.1, hrest.usage.1, h.usage.2, hrest.usage.2]

theorem TaskTwin.usage : ∀ {task task' : Task Value}, TaskTwin ports task task' →
    usesTask task = usesTask task' ∧ (ports = false → usesTask task' = [])
  | task, _, .same h => ⟨rfl, fun hports => by subst hports; cases task <;> first | rfl | cases h⟩
  | _, _, .join | _, _, .reverse _ => ⟨rfl, fun _ => rfl⟩
  | _, _, .joining _ _ h => h.usage
  | _, _, .init _ h => h.usage
  | _, _, .reversing _ h => h.usage
  | _, _, .pick _ h => h.usage

end

theorem AllTwin.uses_eq {as bs : List Value} (h : AllTwin ports as bs) : usesAll as = usesAll bs :=
  h.usage.1

mutual

theorem Twin.inWorld {a b : Value} : Twin false a b → Twin true a b
  | .number n => .number n
  | .text bytes read => .text bytes read
  | .chunks parts position => .chunks parts position
  | .numberText once h => .numberText once h.inWorld
  | .listText separator started hsource hitem =>
    .listText separator started hsource.inWorld hitem.inWorld
  | .list elements position h => .list elements position h.inWorld
  | .recast position hty h => .recast position hty h.inWorld
  | .clusters cutter h => .clusters cutter h.inWorld
  | .chain hty h => .chain hty h.inWorld
  | .curried hready h => .curried hready h.inWorld
  | .suspended hsuits hargs htask => .suspended hsuits hargs.inWorld htask.inWorld
  | .definedLeft name doc h => .definedLeft name doc h.inWorld
  | .definedRight name doc h => .definedRight name doc h.inWorld

theorem OptionTwin.inWorld {a b : Option Value} : OptionTwin false a b → OptionTwin true a b
  | .none => .none
  | .some h => .some h.inWorld

theorem AllTwin.inWorld {as bs : List Value} : AllTwin false as bs → AllTwin true as bs
  | .nil => .nil
  | .cons h hrest => .cons h.inWorld hrest.inWorld

theorem TaskTwin.inWorld {task task' : Task Value} : TaskTwin false task task' → TaskTwin true task task'
  | .same h => .same h
  | .join => .join
  | .joining separator started h => .joining separator started h.inWorld
  | .init started h => .init started h.inWorld
  | .reverse position => .reverse position
  | .reversing position h => .reversing position h.inWorld
  | .pick choice h => .pick choice h.inWorld

end

end Value

end PullScript
