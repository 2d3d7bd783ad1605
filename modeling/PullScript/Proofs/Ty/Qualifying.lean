import Mathlib.Data.List.TakeWhile
import PullScript.Proofs.Ty.Applying
import PullScript.Proofs.Ty.Comparing

namespace PullScript.Ty

variable (owner : String)

theorem qualifiedAll_eq_map (tys : List Ty) : qualifiedAll owner tys = tys.map (qualified owner) := by
  induction tys with
  | nil => rfl
  | cons ty rest ih => rw [qualifiedAll, ih, List.map_cons]

@[simp] theorem isEndless_qualified (ty : Ty) : (ty.qualified owner).isEndless = ty.isEndless := by
  cases ty <;> rfl

theorem part?_qualified (ty : Ty) (step : Step) :
    (ty.qualified owner).part? step = (ty.part? step).map (qualified owner) := by
  cases ty <;> cases step <;> simp [qualified, part?, qualifiedAll_eq_map]

theorem at?_qualified (ty : Ty) (p : List Step) : (ty.qualified owner).at? p = (ty.at? p).map (qualified owner) :=
  at?_map (part?_qualified owner) ty p

theorem at?_qualified_unknown {ty : Ty} {p : List Step} {name : String} :
    (ty.qualified owner).at? p = some (unknown name) ↔ ∃ x, ty.at? p = some (unknown x) ∧ x ++ "_" ++ owner = name := by
  rw [at?_qualified]
  cases ty.at? p with
  | none => simp
  | some part => cases part <;> simp [qualified]

section Finding

variable {owner} {formal actual : Ty}

theorem FirstMet.qualified {name : String} {met : Ty} (h : FirstMet formal actual name met) :
    FirstMet (formal.qualified owner) (actual.qualified owner) (name ++ "_" ++ owner) (met.qualified owner) := by
  have hat (p : List Step) : (formal.qualified owner).at? p = some (unknown (name ++ "_" ++ owner)) ↔
      formal.at? p = some (unknown name) := by
    simp [at?_qualified_unknown]
  simp only [FirstMet, hat]
  simp only [at?_qualified, Option.isSome_map, Option.map_eq_none_iff]
  refine h.imp ?_ ?_
  · rintro ⟨p, hp, hmet, hfirst⟩
    exact ⟨p, hp, congrArg (Option.map _) hmet, hfirst⟩
  · rintro ⟨hnone, rfl⟩
    exact ⟨hnone, rfl⟩

theorem LastMark.qualified {mark : Bool} (h : LastMark formal actual mark) :
    LastMark (formal.qualified owner) (actual.qualified owner) mark := by
  simp only [LastMark, at?_qualified, Option.isSome_map, Option.map_eq_none_iff, Option.map_eq_some_iff]
  refine h.imp ?_ ?_
  · rintro ⟨p, f, a, hp, hf, ha, hmark, hlast⟩
    refine ⟨p, _, _, ⟨f, hp, rfl⟩, by simpa using hf, ⟨a, ha, rfl⟩, by simpa using hmark, ?_⟩
    rintro q _ ⟨g, hg, rfl⟩ hendless
    exact hlast q g hg (by simpa using hendless)
  · rintro ⟨hnone, hmark⟩
    refine ⟨?_, hmark⟩
    rintro p _ ⟨f, hf, rfl⟩ hendless
    exact hnone p f hf (by simpa using hendless)

end Finding

/-- The second match has found what the first one has, but for the owner. -/
structure Match.Owned (m m' : Match) : Prop where
  get : ∀ name, m'.get (name ++ "_" ++ owner) = (m.get name).qualified owner
  endless : m'.endless = m.endless

theorem owned_find (formal actual : Ty) :
    (Match.find {} actual formal).Owned owner (.find {} (actual.qualified owner) (formal.qualified owner)) where
  get name := (firstMet_find _ _ _).unique (firstMet_find formal actual name).qualified
  endless := (lastMark_find _ _).unique (lastMark_find formal actual).qualified

mutual

theorem Match.Owned.fill {m m' : Match} (h : m.Owned owner m') : (ty : Ty) →
    m'.build (ty.qualified owner) = (m.build ty).qualified owner ∧
      m'.replace (ty.qualified owner) = (m.replace ty).qualified owner
  | .unknown name => ⟨h.get name, h.get name⟩
  | .num => ⟨rfl, rfl⟩
  | .str _ => by simp [qualified, build, replace, h.endless]
  | .lst elements _ _ => by simp [qualified, build, replace, h.endless, h.fillAll elements]
  | .arrow arg result => by simp [qualified, build, replace, h.fill arg, h.fill result]

theorem Match.Owned.fillAll {m m' : Match} (h : m.Owned owner m') : (tys : List Ty) →
    m'.buildAll (qualifiedAll owner tys) = qualifiedAll owner (m.buildAll tys) ∧
      m'.replaceAll (qualifiedAll owner tys) = qualifiedAll owner (m.replaceAll tys)
  | [] => ⟨rfl, rfl⟩
  | ty :: rest => by simp [qualifiedAll, buildAll, replaceAll, h.fill ty, h.fillAll rest]

end

@[simp] def Known.qualified (known : Known) : Known :=
  known.map fun binding => (binding.1 ++ "_" ++ owner, binding.2.qualified owner)

theorem lookup_qualified (known : Known) (name : String) :
    (known.qualified owner).lookup (name ++ "_" ++ owner) = (known.lookup name).map (Ty.qualified owner) := by
  induction known with
  | nil => rfl
  | cons binding rest ih =>
    obtain ⟨other, bound⟩ := binding
    simp only [Known.qualified, List.map_cons, List.lookup_cons] at ih ⊢
    by_cases hname : name = other
    · simp [hname]
    · have hnew : name ++ "_" ++ owner ≠ other ++ "_" ++ owner := by simpa using hname
      simp only [beq_eq_false_iff_ne.2 hname, beq_eq_false_iff_ne.2 hnew, ih]

@[simp] def Sides.qualified : Sides → Sides
  | .types a b => .types (a.qualified owner) (b.qualified owner)
  | .lists as bs => .lists (qualifiedAll owner as) (qualifiedAll owner bs)

@[simp] def Turn.qualified : Turn → Turn
  | .done answer known => .done answer (known.qualified owner)
  | .ask sides => .ask (sides.qualified owner)
  | .both first second => .both (first.qualified owner) (second.qualified owner)

theorem turn_qualified (known : Known) (sides : Sides) :
    turn (known.qualified owner) (sides.qualified owner) = (turn known sides).qualified owner := by
  cases sides with
  | types a b =>
    cases a <;> cases b <;>
      simp only [Sides.qualified, Ty.qualified, turn, lookup_qualified, String.append_left_inj, qualifiedAll_eq_map,
        List.isEmpty_map, List.length_map]
    case unknown.unknown x y =>
      rw [apply_ite (Turn.qualified owner)]
      cases known.lookup x with
      | some bound => rfl
      | none => cases known.lookup y <;> rfl
    case lst.lst =>
      rw [apply_ite (Turn.qualified owner), apply_ite (Turn.qualified owner)]
      simp only [Turn.qualified, Sides.qualified, qualifiedAll_eq_map]
    case unknown.num x | unknown.str x _ | unknown.lst x _ _ _ | unknown.arrow x _ _ =>
      cases known.lookup x <;> simp [Ty.qualified, qualifiedAll_eq_map]
    case num.unknown y | str.unknown y | lst.unknown y | arrow.unknown y =>
      cases known.lookup y <;> simp [Ty.qualified, qualifiedAll_eq_map]
    all_goals rfl
  | lists as bs => cases as <;> cases bs <;> rfl

theorem compare_qualified (fuel : Nat) (known : Known) (sides : Sides) :
    compare fuel (known.qualified owner) (sides.qualified owner) =
      (compare fuel known sides).map fun found => (found.1, found.2.qualified owner) := by
  induction fuel generalizing known sides with
  | zero => simp [compare_zero]
  | succ fuel ih =>
    rw [compare_succ, compare_succ, turn_qualified]
    cases turn known sides with
    | done answer known => rfl
    | ask sides => exact ih known sides
    | both first second =>
      simp only [Turn.qualified, Turn.follow, ih]
      obtain _ | ⟨_ | _, between⟩ := compare fuel known first
      · rfl
      · rfl
      · exact ih between second

theorem equals?_qualified (a b : Ty) : (a.qualified owner).equals? (b.qualified owner) = a.equals? b := by
  have hcompare (fuel : Nat) : compatible fuel [] (a.qualified owner) (b.qualified owner) =
      (compatible fuel [] a b).map fun found => (found.1, found.2.qualified owner) :=
    compare_qualified owner fuel [] (.types a b)
  refine Option.ext fun answer => ?_
  rw [equals?_eq_some_iff, equals?_eq_some_iff]
  cases answer <;> simp [Ends, hcompare]

/-- What stands behind the first underscore of a name is not shown. -/
theorem shownName_qualified (name : String) : shownName (name ++ "_" ++ owner) = shownName name := by
  have hstop : ("_" ++ owner).toList.takeWhile (· != '_') = [] := by simp
  rw [shownName, shownName, String.append_assoc, String.toList_append, List.takeWhile_append, hstop]
  split
  · rw [List.append_nil]
    exact ((List.takeWhile_prefix _).eq_of_length ‹_›).symm
  · rfl

mutual

theorem chars_qualified : (ty : Ty) → (ty.qualified owner).chars = ty.chars
  | .unknown name => shownName_qualified owner name
  | .num | .str _ | .lst [] _ _ => rfl
  | .lst (first :: rest) _ _ => by
    simp only [qualified, qualifiedAll, chars, chars_qualified first, charsAfterFirst_qualified rest]
  | .arrow arg result => by
    have harg := chars_qualified arg
    have hresult := chars_qualified result
    cases arg <;> simp_all [qualified, chars]

theorem charsAfterFirst_qualified : (tys : List Ty) → charsAfterFirst (qualifiedAll owner tys) = charsAfterFirst tys
  | [] => rfl
  | ty :: rest => by
    simp only [qualifiedAll, charsAfterFirst, chars_qualified ty, charsAfterFirst_qualified rest]

end

theorem toText_qualified (ty : Ty) : (ty.qualified owner).toText = ty.toText := by
  rw [toText, toText, chars_qualified]

theorem message_qualified (found wanted : Ty) :
    (Error.typeMismatch (found.qualified owner) wanted).message = (Error.typeMismatch found wanted).message := by
  have hmessage (ty : Ty) : (Error.typeMismatch ty wanted).message =
      "type mismatch: expected " ++ wanted.toText ++ " but got " ++ ty.toText := rfl
  rw [hmessage, hmessage, toText_qualified]

theorem applied_qualified (ty actual : Ty) :
    ((ty.qualified owner).applied (actual.qualified owner)).mapError Error.message =
      ((ty.applied actual).map (qualified owner)).mapError Error.message := by
  have hmessage := message_qualified owner ty anyFunction
  cases ty with
  | arrow arg result =>
    simp only [applied, applied?, qualified, ((owned_find owner arg actual).fill owner result).1]
    rfl
  | unknown => exact congrArg Except.error hmessage
  | num => rfl
  | str => rfl
  | lst => exact congrArg Except.error hmessage

/-- An owner can be told from the qualified name if the name itself has no underscore. -/
theorem owner_inj {x y m n : String} (hx : '_' ∉ x.toList) (hy : '_' ∉ y.toList)
    (h : x ++ "_" ++ m = y ++ "_" ++ n) : m = n := by
  have hshown {name : String} (hname : '_' ∉ name.toList) : shownName name = name.toList := by
    rw [shownName, List.takeWhile_eq_self_iff]
    rintro c hc
    simp only [bne_iff_ne]
    rintro rfl
    exact hname hc
  have hnames : x.toList = y.toList := by
    rw [← hshown hx, ← hshown hy, ← shownName_qualified m x, h, shownName_qualified n y]
  obtain rfl := String.toList_injective hnames
  exact (String.append_right_inj _).1 h

/-- Attaching an owner to the unknowns of types changes nothing but their names: applying, instantiating
and comparing types goes on as without it, and no printed type shows it. Unknowns that belong to two
owners are never the same. -/
theorem qualified_renames (owner : String) :
    (∀ ty actual : Ty, ((ty.qualified owner).applied (actual.qualified owner)).mapError Error.message =
      ((ty.applied actual).map (qualified owner)).mapError Error.message) ∧
    (∀ ty actual : Ty,
      (ty.qualified owner).instantiated (actual.qualified owner) = (ty.instantiated actual).qualified owner) ∧
    (∀ a b : Ty, (a.qualified owner).equals? (b.qualified owner) = a.equals? b) ∧
    (∀ ty : Ty, (ty.qualified owner).toText = ty.toText) ∧
    ∀ (other : String) (a b : Ty), owner ≠ other → (∀ name, a.Mentions name → '_' ∉ name.toList) →
      (∀ name, b.Mentions name → '_' ∉ name.toList) →
      ∀ name, (a.qualified owner).Mentions name → ¬ (b.qualified other).Mentions name := by
  refine ⟨applied_qualified owner, fun ty actual => ((owned_find owner ty actual).fill owner ty).2,
    equals?_qualified owner, toText_qualified owner, ?_⟩
  rintro other a b hne ha hb name ⟨p, hp⟩ ⟨q, hq⟩
  obtain ⟨x, hx, rfl⟩ := (at?_qualified_unknown owner).1 hp
  obtain ⟨y, hy, hsame⟩ := (at?_qualified_unknown other).1 hq
  exact hne (owner_inj (ha x ⟨p, hx⟩) (hb y ⟨q, hy⟩) hsame.symm)

/-- Both types have an unknown called `a`. -/
theorem qualified_renames_apart :
    (anyFunction.qualified "map").Mentions "a_map" ∧ (anyList.qualified "head").Mentions "a_head" ∧
      ∀ name, (anyFunction.qualified "map").Mentions name → ¬ (anyList.qualified "head").Mentions name := by
  obtain ⟨-, -, -, -, hapart⟩ := qualified_renames "map"
  refine ⟨⟨[.arg], rfl⟩, ⟨[.element 0], rfl⟩, hapart "head" anyFunction anyList (by decide) ?_ ?_⟩
  · rintro name ⟨_ | ⟨_ | _ | _, _ | ⟨step, rest⟩⟩, hp⟩ <;> cases hp <;> decide
  · rintro name ⟨_ | ⟨⟨_ | k⟩ | _ | _, _ | ⟨step, rest⟩⟩, hp⟩ <;> cases hp
    decide

end PullScript.Ty
