import PullScript.Proofs.Copies.Upholding
import PullScript.Proofs.Twin.Basic
import PullScript.Proofs.View.Place

namespace PullScript

open View

variable {clean' ports : Bool} {values values' : List Value} {k : Nat} {name doc : String} {seen : Reach}

variable {feed : Feed}

/-- Which arguments work with a result of type `ty` does nothing with but copy them. -/
def Task.copies (ty : Ty) : Task Value → Nat → Bool
  | .repeat, _ | .const, _ => true
  | .flip, k => k == 1
  | .pick .., _ => ty.kind == .arrow
  | _, _ => false

/-- A value that nothing has been pulled from and that has nothing to do with the world. -/
structure Value.Sealed (value : Value) : Prop where
  unpulled : value.Unpulled
  twin : Value.Twin false value value

/-- What is noted of a number, in some form: what there is to see of it, and as long as there is no note the
number has been left alone. Unless the state is clean, this need not hold where there is nothing to see. -/
def Noted {α : Type} (feed : Feed) (form : Float → α) (source : Option Value) (clean : Bool)
    (source' : Option Value) (note : Option α) : Prop :=
  (clean = false ∧ ∃ number, source = some number ∧ ∀ x, ¬ (ask number .number).Gives feed x) ∨
    match note with
    | none => source' = source
    | some a => ∃ number x, source = some number ∧ (ask number .number).Gives feed x ∧ form x = a

def numberForm (x : Float) : Bytes :=
  Bytes.ofString (Number.toText x)

inductive Value.Kept (feed : Feed) : Value → Bool → Value → Prop
  | number (n : Float) {clean : Bool} : Kept feed (.number n) clean (.number n)
  | text (bytes : Bytes) (read : Bool) {clean : Bool} : Kept feed (.text bytes false) clean (.text bytes read)
  | chunks (parts : List Bytes) (position : Nat) {clean : Bool} :
    Kept feed (.chunks parts 0) clean (.chunks parts position)
  | numberText {source source' : Value} {once : Once} {clean : Bool} : source.Sealed → Kept feed source clean source' →
    Noted feed numberForm (some source) clean (some source') once.known →
    Kept feed (.numberText (some source) {}) clean (.numberText (some source') once)
  | listText {source source' : Value} (joiner : Joiner Value) {clean : Bool} : Kept feed source clean source' →
    Kept feed (.listText source ⟨joiner.separator, none, false⟩) clean (.listText source' joiner)
  | list (elements : List Ty) (items : List Value) (position : Nat) {clean : Bool} :
    Kept feed (.list elements items 0) clean (.list elements items position)
  | recast (ty : Ty) {source source' : Value} (position : Nat) {clean : Bool} : Kept feed source clean source' →
    Kept feed (.recast ty source 0) clean (.recast ty source' position)
  | clusters {source source' : Value} (cutter : Cutter) {clean : Bool} : Kept feed source clean source' →
    Kept feed (.clusters source {}) clean (.clusters source' cutter)
  | chain (ty : Ty) {stages stages' : List Value} {clean : Bool} : stages'.length = stages.length →
    (∀ (i : Nat) (stage stage' : Value), stages[i]? = some stage → stages'[i]? = some stage' →
      Kept feed stage clean stage') →
    Kept feed (.chain ty stages) clean (.chain ty stages')
  | curried (builtin : Builtin) (ty : Ty) (args : List Value) {clean : Bool} :
    Kept feed (.curried builtin ty args) clean (.curried builtin ty args)
  | suspended (name : String) {ty : Ty} {args args' : List Value} {task task' : Task Value} {clean : Bool} :
    args'.length = args.length →
    (∀ (i : Nat) (a a' : Value), args[i]? = some a → args'[i]? = some a' → Kept feed a clean a') →
    (∀ k, task.copies ty k = true → args'[k]? = args[k]?) → task.Unbegun → (∀ state, task ≠ .take state) →
    task'.restarted = task →
    Kept feed (.suspended name ty args task) clean (.suspended name ty args' task')
  | taking (name : String) (ty : Ty) {args args' : List Value} (state : Take) {clean : Bool} :
    args'.length = args.length →
    (∀ (i : Nat) (a a' : Value), args[i]? = some a → args'[i]? = some a' → Kept feed a clean a') →
    (∀ source, args[0]? = some source → source.Sealed) →
    Noted feed countOf args[0]? clean args'[0]? state.limit →
    Kept feed (.suspended name ty args (.take {})) clean (.suspended name ty args' (.take state))
  | defined (name doc : String) {value value' : Value} {clean : Bool} : Kept feed value clean value' →
    Kept feed (.defined name doc value) clean (.defined name doc value')

section Noted

variable {α : Type} {form : Float → α} {source source' : Option Value} {clean : Bool} {note : Option α}

/-- Where there is something to see, or nothing clean is asked for, what is noted is as clean as may be. -/
theorem Noted.reclean (h : Noted feed form source clean source' note)
    (hmade : clean' = false ∨ ∀ number, source = some number → ∃ x, (ask number .number).Gives feed x) :
    Noted feed form source clean' source' note := by
  obtain ⟨-, number, hnumber, hnothing⟩ | h := h
  · obtain rfl | hmade := hmade
    · exact .inl ⟨rfl, number, hnumber, hnothing⟩
    · obtain ⟨x, hx⟩ := hmade number hnumber
      exact absurd hx (hnothing x)
  · exact .inr h

theorem Noted.weaken (h : Noted feed form source clean source' note) : Noted feed form source false source' note :=
  h.reclean (.inl rfl)

theorem Noted.gives {a : α} (h : Noted feed form source true source' (some a)) :
    ∃ number x, source = some number ∧ (ask number .number).Gives feed x ∧ form x = a :=
  h.resolve_left nofun

end Noted

def Task.limits (args : List Value) : Task Value → List Value
  | .take _ => args.head?.toList
  | _ => []

namespace Value

variable {value value' : Value} {clean : Bool}

mutual

/-- The numbers that are noted when a value is pulled: the limits of lists and the numbers seen as texts. -/
def counted : Value → List Value
  | numberText source _ => countedOption source
  | listText source _ => source.counted
  | recast _ source _ => source.counted
  | clusters source _ => source.counted
  | chain _ stages => countedAll stages
  | suspended _ _ args task => task.limits args ++ countedAll args
  | defined _ _ value => value.counted
  | _ => []

/-- A number seen as a text, if there is one, and the numbers that are noted when it is pulled. -/
def countedOption : Option Value → List Value
  | none => []
  | some source => source :: source.counted

def countedAll : List Value → List Value
  | [] => []
  | value :: rest => value.counted ++ countedAll rest

end

theorem mem_countedAll {source : Value} (hvalue : values[k]? = some value) (h : source ∈ value.counted) :
    source ∈ countedAll values := by
  induction values generalizing k with
  | nil => cases hvalue
  | cons first rest ih =>
    rw [countedAll, List.mem_append]
    cases k with
    | zero =>
      cases hvalue
      exact .inl h
    | succ k => exact .inr (ih hvalue)

/-- What is left is as clean as may be where all numbers that are noted can be made, and where nothing clean is
asked for. -/
theorem Kept.reclean (h : Kept feed value clean value')
    (hmade : clean' = false ∨ ∀ source ∈ value.counted, source.Sealed → ∃ x, (ask source .number).Gives feed x) :
    Kept feed value clean' value' := by
  induction h with
  | number n => exact .number n
  | text bytes read => exact .text bytes read
  | chunks parts position => exact .chunks parts position
  | @numberText source _ _ _ hsource _ hnoted ih =>
    refine .numberText hsource (ih (hmade.imp_right fun h number hnumber => h number (List.mem_cons_of_mem _ hnumber)))
      (hnoted.reclean (hmade.imp_right fun h number hnumber => ?_))
    cases hnumber
    exact h source List.mem_cons_self hsource
  | listText joiner _ ih => exact .listText joiner (ih hmade)
  | list elements items position => exact .list elements items position
  | recast ty position _ ih => exact .recast ty position (ih hmade)
  | clusters cutter _ ih => exact .clusters cutter (ih hmade)
  | chain ty hlength _ ih =>
    refine .chain ty hlength fun i stage stage' hstage hstage' => ih i stage stage' hstage hstage' ?_
    exact hmade.imp_right fun h source hsource => h source (mem_countedAll hstage hsource)
  | curried builtin ty args => exact .curried builtin ty args
  | suspended name hlength _ hcopied hunbegun htake hrestarted ih =>
    refine .suspended name hlength (fun i a a' ha ha' => ih i a a' ha ha' ?_) hcopied hunbegun htake hrestarted
    exact hmade.imp_right fun h source hsource => h source (List.mem_append_right _ (mem_countedAll ha hsource))
  | taking name ty state hlength _ hsealed hnoted ih =>
    refine .taking name ty state hlength (fun i a a' ha ha' => ih i a a' ha ha' ?_) hsealed
      (hnoted.reclean (hmade.imp_right fun h number hnumber => ?_))
    · exact hmade.imp_right fun h source hsource => h source (List.mem_append_right _ (mem_countedAll ha hsource))
    · refine h number (List.mem_append_left _ ?_) (hsealed number hnumber)
      rw [Task.limits, List.head?_eq_getElem?, hnumber]
      exact List.mem_cons_self
  | defined name doc _ ih => exact .defined name doc (ih hmade)

theorem Kept.weaken (h : Kept feed value clean value') : Kept feed value false value' :=
  h.reclean (.inl rfl)

instance : Weakens (Kept feed value) :=
  ⟨Kept.weaken⟩

theorem Kept.kind_eq (h : Kept feed value clean value') : value'.kind = value.kind := by
  induction h with
  | @suspended _ ty _ _ task task' _ _ _ _ _ _ hrestarted _ =>
    subst hrestarted
    exact (kind_restarted ty task').symm
  | defined _ _ _ ih => exact ih
  | _ => rfl

theorem Kept.ty_eq (h : Kept feed value clean value') : value'.ty = value.ty := by
  induction h with
  | listText _ _ ih => simp only [ty, ih]
  | clusters _ _ ih => simp only [ty, ih]
  | defined _ _ _ ih => exact ih
  | _ => rfl

theorem entries_congr (label : Nat → String) (k : Nat) (hlength : values'.length = values.length)
    (hkept : ∀ (i : Nat) (v v' : Value), values[i]? = some v → values'[i]? = some v' → Kept feed v clean v')
    (hparts : ∀ (i : Nat) (v v' : Value), values[i]? = some v → values'[i]? = some v' → v'.parts = v.parts) :
    entries label k values' = entries label k values := by
  induction values generalizing values' k with
  | nil =>
    obtain rfl := List.length_eq_zero_iff.1 hlength
    rfl
  | cons v values ih =>
    cases values' with
    | nil => cases hlength
    | cons v' values' =>
      simp only [entries, (hkept 0 v v' rfl rfl).ty_eq, hparts 0 v v' rfl rfl,
        ih (k + 1) (Nat.succ.inj hlength) (fun i => hkept (i + 1)) fun i => hparts (i + 1)]

theorem Kept.parts_eq (h : Kept feed value clean value') : value'.parts = value.parts := by
  induction h with
  | numberText _ hsource _ ih => simp only [parts, optionEntry, hsource.ty_eq, ih]
  | listText _ hsource ih => simp only [parts, hsource.ty_eq, ih]
  | recast _ _ hsource ih => simp only [parts, hsource.ty_eq, ih]
  | clusters _ hsource ih => simp only [parts, hsource.ty_eq, ih]
  | chain _ hlength hstages ih => simp only [parts, entries_congr _ _ hlength hstages ih]
  | suspended _ hlength hargs _ _ _ _ ih => simp only [parts, entries_congr _ _ hlength hargs ih]
  | taking _ _ _ hlength hargs _ _ ih => simp only [parts, entries_congr _ _ hlength hargs ih]
  | defined _ _ hvalue ih => simp only [parts, hvalue.kind_eq, hvalue.ty_eq, ih]
  | _ => rfl

theorem ty_copy (value : Value) : value.copy.ty = value.ty := by
  induction value using ty.induct with
  | _ => simp_all [copy, ty]

mutual

theorem parts_copy (value : Value) : value.copy.parts = value.parts := by
  cases value <;>
    simp [copy, parts, parts_copy, ty_copy, optionEntry_copyOption, entries_copyAll, length_copyAll]

theorem optionEntry_copyOption (value : Option Value) : optionEntry (copyOption value) = optionEntry value := by
  cases value <;> simp [copyOption, optionEntry, ty_copy, parts_copy]

theorem entries_copyAll (label : Nat → String) (k : Nat) (values : List Value) :
    entries label k (copyAll values) = entries label k values := by
  cases values <;> simp [copyAll, entries, ty_copy, parts_copy, entries_copyAll]

end

theorem debugText_congr {a b : Value} (hty : a.ty = b.ty) (hparts : a.parts = b.parts) (layout : Layout) :
    a.debugText layout = b.debugText layout := by
  simp only [debugText, node, hty, hparts]

theorem Twin.undefineLeft {other : Value} (h : Twin ports (.defined name doc value) other) :
    Twin ports value other := by
  induction other using kind.induct with
  | case15 name' doc' other ih =>
    cases h with
    | definedLeft _ _ h => exact h
    | definedRight _ _ h => exact .definedRight name' doc' (ih h)
  | _ =>
    cases h with
    | definedLeft _ _ h => exact h

theorem Twin.undefine (h : Twin ports (.defined name doc value) (.defined name doc value)) :
    Twin ports value value :=
  h.undefineLeft.symm.undefineLeft

theorem AllTwin.getElem?_self (h : AllTwin ports values values) (hvalue : values[k]? = some value) :
    Twin ports value value := by
  have htwin := h.getElem? k
  rw [hvalue] at htwin
  cases htwin with
  | some htwin => exact htwin

mutual

theorem Sealed.kept : {value : Value} → value.Sealed → Kept feed value clean value
  | .number n, _ => .number n
  | .text bytes _, h => by
    obtain rfl := h.unpulled
    exact .text bytes false
  | .chunks parts _, h => by
    obtain rfl := h.unpulled
    exact .chunks parts 0
  | .input .., h => by cases h.twin with | input _ _ _ hports => cases hports
  | .numberText (some source) _, h => by
    obtain ⟨⟨hsource, rfl⟩, htwin⟩ := h
    cases htwin with
    | numberText _ htwin => cases htwin with
      | some htwin =>
        have hsealed : source.Sealed := ⟨hsource, htwin⟩
        exact .numberText hsealed hsealed.kept (.inr rfl)
  | .listText source ⟨separator, _, _⟩, h => by
    obtain ⟨⟨hsource, rfl, rfl⟩, htwin⟩ := h
    cases htwin with
    | listText _ _ htwin _ => exact .listText ⟨separator, none, false⟩ (Sealed.kept ⟨hsource, htwin⟩)
  | .list elements items _, h => by
    obtain ⟨-, rfl⟩ := h.unpulled
    exact .list elements items 0
  | .recast ty source _, h => by
    obtain ⟨⟨hsource, rfl⟩, htwin⟩ := h
    cases htwin with
    | recast _ _ htwin => exact .recast ty 0 (Sealed.kept ⟨hsource, htwin⟩)
  | .clusters source _, h => by
    obtain ⟨⟨hsource, rfl⟩, htwin⟩ := h
    cases htwin with
    | clusters _ htwin => exact .clusters {} (Sealed.kept ⟨hsource, htwin⟩)
  | .chain ty stages, h => by
    obtain ⟨hstages, htwin⟩ := h
    cases htwin with
    | chain _ htwin => exact .chain ty rfl (Sealed.keptAll hstages htwin)
  | .curried builtin ty args, _ => .curried builtin ty args
  | .suspended name ty args task, h => by
    obtain ⟨⟨hargs, hunbegun⟩, htwin⟩ := h
    cases htwin with
    | suspended _ htwin _ =>
      by_cases htake : ∃ state, task = .take state
      · obtain ⟨state, rfl⟩ := htake
        obtain rfl := hunbegun
        exact .taking name ty {} rfl (Sealed.keptAll hargs htwin)
          (fun _ hsource => ⟨hargs.getElem? hsource, htwin.getElem?_self hsource⟩) (.inr rfl)
      · exact .suspended name rfl (Sealed.keptAll hargs htwin) (fun _ _ => rfl) hunbegun
          (fun state hstate => htake ⟨state, hstate⟩) hunbegun.restarted_eq
  | .defined name doc value, h => .defined name doc (Sealed.kept ⟨h.unpulled, h.twin.undefine⟩)

theorem Sealed.keptAll : {values : List Value} → UnpulledAll values → AllTwin false values values →
    ∀ (i : Nat) (a a' : Value), values[i]? = some a → values[i]? = some a' → Kept feed a clean a'
  | value :: _, hvalues, htwin, 0, _, _, ha, ha' => by
    cases ha
    cases ha'
    exact Sealed.kept ⟨hvalues.1, htwin.getElem?_self (k := 0) rfl⟩
  | _ :: _, hvalues, htwin, i + 1, a, a', ha, ha' => by
    cases htwin with
    | cons _ htwin => exact Sealed.keptAll hvalues.2 htwin i a a' ha ha'

end

theorem forall_copyAll {P : Value → Value → Prop}
    (h : ∀ (i : Nat) (v v' : Value), values[i]? = some v → values'[i]? = some v' → P v v'.copy) (i : Nat)
    (v v' : Value) (hv : values[i]? = some v) (hv' : (copyAll values')[i]? = some v') : P v v' := by
  rw [copyAll_eq_map, List.getElem?_map] at hv'
  obtain ⟨left, hleft, rfl⟩ := Option.map_eq_some_iff.1 hv'
  exact h i v left hv hleft

theorem copyAll_congr (h : ∀ k : Nat, values'[k]? = values[k]?) : copyAll (copyAll values') = copyAll values := by
  rw [List.ext_getElem? h, copyAll_copyAll]

end Value

theorem Task.Unbegun.at_copies {task : Task Value} (h : task.Unbegun) {b : Bound} {args' : List Value}
    (hcopied : ∀ k, task.copies b.ty k = true → args'[k]? = b.args[k]?) :
    Task.At feed seen b (Value.copyAll args') (fun _ => 0) 0 task task := by
  have hstart : Task.At feed seen b b.args (fun _ => 0) 0 task task := h.at_start rfl
  cases task with
  | join joiner =>
    subst h
    exact hstart
  | «repeat» => exact Value.copyAll_congr fun k => hcopied k rfl
  | init state =>
    subst h
    exact hstart
  | pick choice item =>
    subst h
    exact ⟨rfl, rfl, fun _ => rfl, fun hty => Value.copyAll_congr fun k => hcopied k (by simp [Task.copies, hty])⟩
  | const => exact ⟨rfl, Value.copyAll_congr fun k => hcopied k rfl⟩
  | flip => exact ⟨rfl, rfl, by simp [Value.copyAll_eq_map, hcopied 1 rfl, Function.comp_def]⟩
  | _ => exact hstart

namespace Value

variable {value value' : Value}

theorem Kept.at_copy (h : Kept feed value true value') : At feed seen value 0 value'.copy := by
  generalize hclean : true = clean at h
  induction h with
  | number n => exact .number n
  | text bytes _ => exact .text bytes false
  | chunks parts _ => exact .chunks parts (Nat.zero_le _)
  | numberText _ _ hnoted ih =>
    subst hclean
    refine .numberText ⟨.inl ⟨rfl, rfl⟩, fun known hknown => ?_⟩ fun _ => ih rfl
    rw [show _ = some known from hknown] at hnoted
    obtain ⟨number, x, hnumber, hx, rfl⟩ := hnoted.gives
    cases hnumber
    exact hx.bind (.pure _)
  | listText joiner _ ih => exact .listText (.pure _) (ih hclean) nofun (.start joiner.separator value)
  | list elements items _ =>
    have hlist : At feed seen (.list elements items 0) 0 (.list elements (copyAll items) (min 0 items.length)) :=
      .list elements 0 (copyAll_copyAll items)
    rwa [Nat.zero_min] at hlist
  | recast _ _ _ ih => exact .recast (ih hclean) (.inr rfl)
  | clusters _ _ ih =>
    refine .clusters (ih hclean) ⟨[], 0, .refl 0, .pure _, ?_⟩
    exact .inl ⟨rfl, rfl, Nat.le_refl 0, rfl⟩
  | chain _ hlength _ ih =>
    refine .chain (by rw [length_copyAll, hlength]) (forall_copyAll fun i stage left hstage hleft => ?_)
    exact ih i stage left hstage hleft hclean
  | curried builtin ty args => exact .curried builtin ty (copyAll_copyAll args)
  | suspended name hlength _ hcopied hunbegun _ hrestarted ih =>
    rw [copy, hrestarted]
    refine .suspended (by rw [length_copyAll, hlength]) (forall_copyAll fun i a left ha hleft => ?_)
      (hunbegun.at_copies hcopied)
    exact ih i a left ha hleft hclean
  | @taking name ty args args' state _ hlength _ _ hnoted ih =>
    subst hclean
    have htask : Task.At feed seen ⟨name, ty, args⟩ (copyAll args') (fun _ => 0) 0 (.take {}) (.take ⟨state.limit, 0⟩) := by
      refine ⟨rfl, rfl, fun _ => rfl, fun limit hlimit => ?_⟩
      rw [show _ = some limit from hlimit] at hnoted
      obtain ⟨number, x, hnumber, hx, rfl⟩ := hnoted.gives
      have hargument : (argNumber ⟨name, ty, args⟩ 0).Gives feed x := (gives_arg_iff.2 hnumber).bind hx
      exact hargument.bind (.pure _)
    refine .suspended (by rw [length_copyAll, hlength]) (forall_copyAll fun i a left ha hleft => ?_) htask
    exact ih i a left ha hleft rfl
  | defined _ _ _ ih => exact .defined (ih hclean)

end Value

end PullScript
