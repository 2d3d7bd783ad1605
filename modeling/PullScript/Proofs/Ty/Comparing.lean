import Mathlib.Data.Finset.Card
import Mathlib.Tactic.Linarith
import PullScript.Ty.Compare

namespace PullScript.Ty

variable {fuel : Nat} {answer : Bool} {ty : Ty} {x : String}

inductive Sides where
  | types (a b : Ty)
  | lists (as bs : List Ty)

inductive Turn where
  | done (answer : Bool) (known : Known)
  | ask (sides : Sides)
  /-- It compares two things, the second one only when the first is compatible. -/
  | both (first second : Sides)

def turn (known : Known) : Sides → Turn
  | .types (unknown x) (unknown y) =>
    if x = y then .done true known
    else match known.lookup x with
      | some bound => .ask (.types bound (unknown y))
      | none =>
        match known.lookup y with
        | some bound => .ask (.types (unknown x) bound)
        | none => .done true ((x, unknown y) :: known)
  | .types (unknown x) b =>
    match known.lookup x with
    | some bound => .ask (.types bound b)
    | none => .done true ((x, b) :: known)
  | .types a (unknown y) =>
    match known.lookup y with
    | some bound => .ask (.types a bound)
    | none => .done true ((y, a) :: known)
  | .types num num => .done true known
  | .types (str _) (str _) => .done true known
  | .types (lst as _ _) (lst bs _ _) =>
    if as.isEmpty || bs.isEmpty then .done true known
    else if as.length = bs.length then .ask (.lists as bs)
    else .done false known
  | .types (arrow arg₁ result₁) (arrow arg₂ result₂) =>
    .both (.types arg₁ arg₂) (.types result₁ result₂)
  | .types _ _ => .done false known
  | .lists (a :: as) (b :: bs) => .both (.types a b) (.lists as bs)
  | .lists _ _ => .done true known

def compare (fuel : Nat) (known : Known) : Sides → Option (Bool × Known)
  | .types a b => compatible fuel known a b
  | .lists as bs => compatibleAll fuel known as bs

def Turn.follow (fuel : Nat) (known : Known) : Turn → Option (Bool × Known)
  | .done answer known => some (answer, known)
  | .ask sides => compare fuel known sides
  | .both first second =>
    match compare fuel known first with
    | some (true, known) => compare fuel known second
    | other => other

theorem compare_zero (known : Known) (sides : Sides) : compare 0 known sides = none := by
  cases sides <;> simp [compare, compatible, compatibleAll]

theorem compare_succ (fuel : Nat) (known : Known) (sides : Sides) :
    compare (fuel + 1) known sides = (turn known sides).follow fuel known := by
  cases sides with
  | types a b =>
    cases a <;> cases b <;> simp only [compare, compatible, turn] <;> grind [compare, Turn.follow]
  | lists as bs =>
    cases as <;> cases bs <;> simp only [compare, compatibleAll, turn] <;> rfl

theorem follow_both_eq_some_iff {known known' : Known} {first second : Sides} :
    (Turn.both first second).follow fuel known = some (answer, known') ↔
      (answer = false ∧ compare fuel known first = some (false, known')) ∨
        ∃ between, compare fuel known first = some (true, between) ∧
          compare fuel between second = some (answer, known') := by
  rw [Turn.follow]
  cases hfirst : compare fuel known first with
  | none => simp
  | some found =>
    obtain ⟨same, between⟩ := found
    cases same <;> simp [eq_comm]

theorem compare_mono {more : Nat} {known known' : Known} {sides : Sides} (hle : fuel ≤ more)
    (h : compare fuel known sides = some (answer, known')) : compare more known sides = some (answer, known') := by
  induction fuel generalizing more known known' sides answer with
  | zero => simp [compare_zero] at h
  | succ fuel ih =>
    obtain ⟨more, rfl⟩ := Nat.exists_eq_add_of_le' hle
    rw [← Nat.add_assoc]
    rw [compare_succ] at h ⊢
    cases hturn : turn known sides with
    | done answer' known'' =>
      rw [hturn] at h
      exact h
    | ask sides' =>
      rw [hturn] at h
      exact ih (Nat.le_add_left fuel more) h
    | both first second =>
      rw [hturn, follow_both_eq_some_iff] at h
      rw [follow_both_eq_some_iff]
      obtain ⟨rfl, hfirst⟩ | ⟨between, hfirst, hsecond⟩ := h
      · exact .inl ⟨rfl, ih (Nat.le_add_left fuel more) hfirst⟩
      · exact .inr ⟨between, ih (Nat.le_add_left fuel more) hfirst, ih (Nat.le_add_left fuel more) hsecond⟩

mutual

def parts : Ty → List Ty
  | lst elements endless tuple => lst elements endless tuple :: partsAll elements
  | arrow arg result => arrow arg result :: (arg.parts ++ result.parts)
  | ty => [ty]

def partsAll : List Ty → List Ty
  | [] => []
  | ty :: rest => ty.parts ++ partsAll rest

end

mutual

def runs : Ty → List (List Ty)
  | lst elements _ _ => runsAll elements
  | arrow arg result => arg.runs ++ result.runs
  | _ => []

def runsAll : List Ty → List (List Ty)
  | [] => []
  | ty :: rest => (ty :: rest) :: (ty.runs ++ runsAll rest)

end

mutual

theorem length_parts_add_length_runs : (ty : Ty) → ty.parts.length + ty.runs.length = ty.size
  | .unknown _ | .num | .str _ => by simp [parts, runs, size]
  | .lst elements _ _ => by
    have h := length_partsAll_add_length_runsAll elements
    simp only [parts, runs, size, List.length_cons]
    omega
  | .arrow arg result => by
    have harg := length_parts_add_length_runs arg
    have hresult := length_parts_add_length_runs result
    simp only [parts, runs, size, List.length_cons, List.length_append]
    omega

theorem length_partsAll_add_length_runsAll :
    (tys : List Ty) → (partsAll tys).length + (runsAll tys).length = sizeAll tys
  | [] => rfl
  | ty :: rest => by
    have hty := length_parts_add_length_runs ty
    have hrest := length_partsAll_add_length_runsAll rest
    simp only [partsAll, runsAll, sizeAll, List.length_cons, List.length_append]
    omega

end

theorem mem_parts_self (ty : Ty) : ty ∈ ty.parts := by
  cases ty <;> simp [parts]

theorem mem_runsAll_self (tys : List Ty) : tys ∈ [] :: runsAll tys := by
  cases tys <;> simp [runsAll]

section Closure

variable (types : List Ty) (lists : List (List Ty))

def MadeOf : Ty → Prop
  | lst elements _ _ => elements ∈ lists
  | arrow arg result => arg ∈ types ∧ result ∈ types
  | _ => True

def MadeOfAll : List Ty → Prop
  | [] => True
  | ty :: rest => ty ∈ types ∧ rest ∈ lists

structure Closed : Prop where
  madeOf : ∀ ty ∈ types, MadeOf types lists ty
  madeOfAll : ∀ tys ∈ lists, MadeOfAll types lists tys

end Closure

section Closure

variable {types types' : List Ty} {lists lists' : List (List Ty)}

theorem MadeOf.mono (h : MadeOf types lists ty) (htypes : types ⊆ types') (hlists : lists ⊆ lists') :
    MadeOf types' lists' ty := by
  cases ty with
  | lst => exact hlists h
  | arrow => exact ⟨htypes h.1, htypes h.2⟩
  | _ => trivial

theorem MadeOfAll.mono {tys : List Ty} (h : MadeOfAll types lists tys) (htypes : types ⊆ types')
    (hlists : lists ⊆ lists') : MadeOfAll types' lists' tys := by
  cases tys with
  | nil => trivial
  | cons => exact ⟨htypes h.1, hlists h.2⟩

theorem Closed.append (h : Closed types ([] :: lists)) (h' : Closed types' ([] :: lists')) :
    Closed (types ++ types') ([] :: (lists ++ lists')) := by
  have hlists : [] :: lists ⊆ [] :: (lists ++ lists') := List.cons_subset_cons _ (List.subset_append_left _ _)
  have hlists' : [] :: lists' ⊆ [] :: (lists ++ lists') := List.cons_subset_cons _ (List.subset_append_right _ _)
  constructor
  · refine List.forall_mem_append.2 ⟨fun ty hty => ?_, fun ty hty => ?_⟩
    · exact (h.madeOf ty hty).mono (List.subset_append_left _ _) hlists
    · exact (h'.madeOf ty hty).mono (List.subset_append_right _ _) hlists'
  · refine List.forall_mem_cons.2 ⟨trivial, List.forall_mem_append.2 ⟨fun tys htys => ?_, fun tys htys => ?_⟩⟩
    · exact (h.madeOfAll tys (List.mem_cons_of_mem _ htys)).mono (List.subset_append_left _ _) hlists
    · exact (h'.madeOfAll tys (List.mem_cons_of_mem _ htys)).mono (List.subset_append_right _ _) hlists'

theorem Closed.cons_type (h : Closed types lists) (hty : MadeOf types lists ty) : Closed (ty :: types) lists where
  madeOf := List.forall_mem_cons.2 ⟨hty.mono (List.subset_cons_self _ _) (List.Subset.refl _), fun other hother =>
    (h.madeOf other hother).mono (List.subset_cons_self _ _) (List.Subset.refl _)⟩
  madeOfAll := fun tys htys => (h.madeOfAll tys htys).mono (List.subset_cons_self _ _) (List.Subset.refl _)

theorem Closed.cons_list {rest : List Ty} (h : Closed types ([] :: lists)) (hty : ty ∈ types)
    (hrest : rest ∈ [] :: lists) : Closed types ([] :: (ty :: rest) :: lists) := by
  have hlists : [] :: lists ⊆ [] :: (ty :: rest) :: lists := List.cons_subset_cons _ (List.subset_cons_self _ _)
  constructor
  · exact fun other hother => (h.madeOf other hother).mono (List.Subset.refl _) hlists
  · refine List.forall_mem_cons.2 ⟨trivial, List.forall_mem_cons.2 ⟨⟨hty, hlists hrest⟩, fun tys htys => ?_⟩⟩
    exact (h.madeOfAll tys (List.mem_cons_of_mem _ htys)).mono (List.Subset.refl _) hlists

end Closure

mutual

theorem closed_parts : (ty : Ty) → Closed ty.parts ([] :: ty.runs)
  | .unknown _ | .num | .str _ => by constructor <;> simp [parts, runs, MadeOf, MadeOfAll]
  | .lst elements endless tuple => (closed_partsAll elements).cons_type (mem_runsAll_self elements)
  | .arrow arg result => ((closed_parts arg).append (closed_parts result)).cons_type
      ⟨List.mem_append_left _ arg.mem_parts_self, List.mem_append_right _ result.mem_parts_self⟩

theorem closed_partsAll : (tys : List Ty) → Closed (partsAll tys) ([] :: runsAll tys)
  | [] => by constructor <;> simp [partsAll, runsAll, MadeOfAll]
  | ty :: rest => ((closed_parts ty).append (closed_partsAll rest)).cons_list
      (List.mem_append_left _ ty.mem_parts_self)
      (List.cons_subset_cons _ (List.subset_append_right _ _) (mem_runsAll_self rest))

end

section Depth

variable {types : List Ty} {lists : List (List Ty)} {known known' : Known} {sides : Sides}

def Sides.Among (types : List Ty) (lists : List (List Ty)) : Sides → Prop
  | .types a b => a ∈ types ∧ b ∈ types
  | .lists as bs => as ∈ lists ∧ bs ∈ lists

def Known.Among (types : List Ty) (known : Known) : Prop :=
  ∀ x bound, known.lookup x = some bound → bound ∈ types

/-- A turn compares and binds only what is among the given types and lists, and binds no unknown a second
time. -/
def Turn.Among (types : List Ty) (lists : List (List Ty)) (known : Known) : Turn → Prop
  | .done _ known' => known' = known ∨ ∃ x bound, known' = (x, bound) :: known ∧ known.lookup x = none ∧
      unknown x ∈ types ∧ bound ∈ types
  | .ask sides => sides.Among types lists
  | .both first second => first.Among types lists ∧ second.Among types lists

theorem turn_among (hclosed : Closed types lists) (hknown : known.Among types) (hsides : sides.Among types lists) :
    (turn known sides).Among types lists known := by
  cases sides with
  | types a b =>
    obtain ⟨ha, hb⟩ := hsides
    have hmadeA := hclosed.madeOf a ha
    have hmadeB := hclosed.madeOf b hb
    cases a <;> cases b <;> simp only [turn] <;> grind [Turn.Among, Sides.Among, MadeOf, Known.Among]
  | lists as bs =>
    have hmadeA := hclosed.madeOfAll as hsides.1
    have hmadeB := hclosed.madeOfAll bs hsides.2
    cases as <;> cases bs <;> simp_all [turn, Turn.Among, Sides.Among, MadeOfAll]

def unbound (types : List Ty) (known : Known) : Finset String :=
  (types.filterMap name?).toFinset.filter (known.lookup · = none)

theorem mem_unbound : x ∈ unbound types known ↔ unknown x ∈ types ∧ known.lookup x = none := by
  have hname (ty : Ty) : ty.name? = some x ↔ ty = unknown x := by cases ty <;> simp [name?]
  simp [unbound, hname]

theorem card_unbound_cons_lt {bound : Ty} (hx : unknown x ∈ types) (hfree : known.lookup x = none) :
    (unbound types ((x, bound) :: known)).card < (unbound types known).card := by
  refine Finset.card_lt_card ⟨fun y hy => ?_, fun hsub => ?_⟩
  · obtain ⟨hy, hnone⟩ := mem_unbound.1 hy
    refine mem_unbound.2 ⟨hy, ?_⟩
    rw [List.lookup_cons] at hnone
    split at hnone
    · cases hnone
    · exact hnone
  · have hnone := (mem_unbound.1 (hsub (mem_unbound.2 ⟨hx, hfree⟩))).2
    simp at hnone

theorem compare_among (hclosed : Closed types lists) (hknown : known.Among types) (hsides : sides.Among types lists)
    (h : compare fuel known sides = some (answer, known')) :
    known'.Among types ∧ (known' = known ∨ (unbound types known').card < (unbound types known).card) := by
  induction fuel generalizing known known' sides answer with
  | zero => simp [compare_zero] at h
  | succ fuel ih =>
    rw [compare_succ] at h
    have hturn := turn_among hclosed hknown hsides
    cases hcase : turn known sides with
    | done answer' found =>
      rw [hcase] at h hturn
      simp only [Turn.follow, Option.some.injEq, Prod.mk.injEq] at h
      obtain ⟨-, rfl⟩ := h
      obtain rfl | ⟨x, bound, rfl, hfree, hx, hbound⟩ := hturn
      · exact ⟨hknown, .inl rfl⟩
      · refine ⟨fun y found hy => ?_, .inr (card_unbound_cons_lt hx hfree)⟩
        rw [List.lookup_cons] at hy
        split at hy
        · exact Option.some.inj hy ▸ hbound
        · exact hknown y found hy
    | ask sides' =>
      rw [hcase] at h hturn
      exact ih hknown hturn h
    | both first second =>
      rw [hcase] at h hturn
      obtain ⟨-, hfirst⟩ | ⟨between, hfirst, hsecond⟩ := follow_both_eq_some_iff.1 h
      · exact ih hknown hturn.1 hfirst
      · obtain ⟨hbetween, hgrown⟩ := ih hknown hturn.1 hfirst
        obtain ⟨hknown', hgrown'⟩ := ih hbetween hturn.2 hsecond
        refine ⟨hknown', ?_⟩
        obtain rfl | hgrown := hgrown
        · exact hgrown'
        · obtain rfl | hgrown' := hgrown'
          · exact .inr hgrown
          · exact .inr (hgrown'.trans hgrown)

/-- A comparison that ends takes no more depth than there are questions that it can come to, once for each
unknown that is left and once more. The questions `seen` have come up before under the same bindings, and
would not have been answered with the fuel that is left. -/
theorem compare_within (hclosed : Closed types lists) {all : List Sides}
    (hall : ∀ sides : Sides, sides.Among types lists → sides ∈ all) {depth : Nat} {seen : List Sides}
    (hknown : known.Among types) (hsides : sides.Among types lists) (hseen : seen.Nodup) (hsub : seen ⊆ all)
    (hopen : ∀ asked ∈ seen, compare fuel known asked = none) (h : compare fuel known sides = some (answer, known'))
    (hdepth : (unbound types known).card * (all.length + 1) + (all.length - seen.length) ≤ depth) :
    compare depth known sides = some (answer, known') := by
  induction fuel generalizing known known' sides answer seen depth with
  | zero => simp [compare_zero] at h
  | succ fuel ih =>
    have hopen' : ∀ asked ∈ seen, compare fuel known asked = none := fun asked hasked => by
      cases hanswer : compare fuel known asked with
      | none => rfl
      | some found => exact absurd (hopen asked hasked) (by simp [compare_mono (Nat.le_succ fuel) hanswer])
    cases hless : compare fuel known sides with
    | some found =>
      have heq := compare_mono (Nat.le_succ fuel) hless
      rw [h] at heq
      exact ih hknown hsides hseen hsub hopen' (hless.trans heq.symm) hdepth
    | none =>
      have hnew : sides ∉ seen := fun hmem => by simp [hopen sides hmem] at h
      have hseen' : (sides :: seen).Nodup := List.nodup_cons.2 ⟨hnew, hseen⟩
      have hsub' : sides :: seen ⊆ all := List.cons_subset.2 ⟨hall sides hsides, hsub⟩
      have hopen'' : ∀ asked ∈ sides :: seen, compare fuel known asked = none :=
        List.forall_mem_cons.2 ⟨hless, hopen'⟩
      have hroom : seen.length + 1 ≤ all.length := (hseen'.subperm hsub').length_le
      obtain _ | depth := depth
      · omega
      have hdepth' : (unbound types known).card * (all.length + 1) + (all.length - (sides :: seen).length) ≤ depth := by
        rw [List.length_cons]
        omega
      have hturn := turn_among hclosed hknown hsides
      rw [compare_succ] at h ⊢
      cases hcase : turn known sides with
      | done answer' found =>
        rw [hcase] at h
        exact h
      | ask sides' =>
        rw [hcase] at h hturn
        exact ih hknown hturn hseen' hsub' hopen'' h hdepth'
      | both first second =>
        rw [hcase] at h hturn
        rw [follow_both_eq_some_iff] at h ⊢
        obtain ⟨rfl, hfirst⟩ | ⟨between, hfirst, hsecond⟩ := h
        · exact .inl ⟨rfl, ih hknown hturn.1 hseen' hsub' hopen'' hfirst hdepth'⟩
        · refine .inr ⟨between, ih hknown hturn.1 hseen' hsub' hopen'' hfirst hdepth', ?_⟩
          obtain ⟨hbetween, rfl | hfewer⟩ := compare_among hclosed hknown hturn.1 hfirst
          · exact ih hknown hturn.2 hseen' hsub' hopen'' hsecond hdepth'
          · -- a new binding: the questions seen so far may come up again, but with one unknown less
            have hmul := Nat.mul_le_mul_right (all.length + 1) hfewer
            rw [Nat.succ_mul] at hmul
            exact ih hbetween hturn.2 List.nodup_nil (List.nil_subset all) (by simp) hsecond (by
              rw [List.length_nil]
              omega)

end Depth

def allSides (types : List Ty) (lists : List (List Ty)) : List Sides :=
  (types.flatMap fun a => types.map (.types a)) ++ lists.flatMap fun as => lists.map (.lists as)

theorem mem_allSides {types : List Ty} {lists : List (List Ty)} {sides : Sides} (h : sides.Among types lists) :
    sides ∈ allSides types lists := by
  cases sides with
  | types a b =>
    obtain ⟨ha, hb⟩ := h
    simp [allSides, ha, hb]
  | lists as bs =>
    obtain ⟨has, hbs⟩ := h
    simp [allSides, has, hbs]

theorem length_allSides (types : List Ty) (lists : List (List Ty)) :
    (allSides types lists).length = types.length * types.length + lists.length * lists.length := by
  simp [allSides, List.length_flatMap]

theorem depth_le {unknowns types lists places : Nat} (hunknowns : unknowns ≤ places)
    (hplaces : types + lists = places + 1) :
    unknowns * (types * types + lists * lists + 1) + (types * types + lists * lists) ≤ 2 * Nat.pow (places + 1) 3 := by
  have hquestions : types * types + lists * lists ≤ (places + 1) * (places + 1) := by
    rw [← hplaces]
    nlinarith
  have hmul := Nat.mul_le_mul hunknowns (Nat.succ_le_succ hquestions)
  calc unknowns * (types * types + lists * lists + 1) + (types * types + lists * lists)
      ≤ places * ((places + 1) * (places + 1) + 1) + (places + 1) * (places + 1) := Nat.add_le_add hmul hquestions
    _ ≤ 2 * (places + 1) ^ 3 := by nlinarith [Nat.zero_le (places ^ 3), Nat.zero_le (places ^ 2)]

def Ends (a b : Ty) (answer : Bool) : Prop :=
  ∃ fuel known, compatible fuel [] a b = some (answer, known)

theorem equals?_eq_some_iff {a b : Ty} : a.equals? b = some answer ↔ Ends a b answer := by
  constructor
  · intro h
    obtain ⟨⟨_, known⟩, hfound, rfl⟩ := Option.map_eq_some_iff.1 h
    exact ⟨_, known, hfound⟩
  · rintro ⟨fuel, known, h⟩
    have hsize := length_parts_add_length_runs a
    have hsize' := length_parts_add_length_runs b
    have hunbound : (unbound (a.parts ++ b.parts) []).card ≤ a.parts.length + b.parts.length := by
      refine (Finset.card_filter_le _ _).trans ((List.toFinset_card_le _).trans ?_)
      exact (List.length_filterMap_le _ _).trans_eq List.length_append
    have hfound : compare (comparisonDepth a b) [] (.types a b) = some (answer, known) := by
      refine compare_within ((closed_parts a).append (closed_parts b)) (fun _ => mem_allSides)
        (fun x bound hx => by simp at hx)
        ⟨List.mem_append_left _ a.mem_parts_self, List.mem_append_right _ b.mem_parts_self⟩
        List.nodup_nil (List.nil_subset _) (by simp) h ?_
      rw [length_allSides, List.length_nil, Nat.sub_zero]
      refine depth_le (hunbound.trans (by omega)) ?_
      simp only [List.length_append, List.length_cons]
      omega
    rw [equals?, show compatible (comparisonDepth a b) [] a b = some (answer, known) from hfound]
    rfl

end PullScript.Ty
