import Mathlib.Logic.Relation
import PullScript.Proofs.Ty.Comparing

namespace PullScript.Ty

variable {known : Known} {sides : Sides} {answer : Bool}

inductive Compares : Known → Sides → Bool → Known → Prop
  | done {known known' : Known} {sides : Sides} {answer : Bool} :
    turn known sides = .done answer known' → Compares known sides answer known'
  | ask {known known' : Known} {sides sides' : Sides} {answer : Bool} :
    turn known sides = .ask sides' → Compares known sides' answer known' → Compares known sides answer known'
  | first {known known' : Known} {sides first second : Sides} :
    turn known sides = .both first second → Compares known first false known' → Compares known sides false known'
  | both {known between known' : Known} {sides first second : Sides} {answer : Bool} :
    turn known sides = .both first second → Compares known first true between →
      Compares between second answer known' → Compares known sides answer known'

theorem compares_iff {known' : Known} :
    Compares known sides answer known' ↔ ∃ fuel, compare fuel known sides = some (answer, known') := by
  constructor
  · intro h
    induction h with
    | done hturn => exact ⟨1, by rw [compare_succ, hturn]; rfl⟩
    | ask hturn _ ih =>
      obtain ⟨fuel, hfuel⟩ := ih
      exact ⟨fuel + 1, by rw [compare_succ, hturn]; exact hfuel⟩
    | first hturn _ ih =>
      obtain ⟨fuel, hfuel⟩ := ih
      exact ⟨fuel + 1, by rw [compare_succ, hturn]; exact follow_both_eq_some_iff.2 (.inl ⟨rfl, hfuel⟩)⟩
    | both hturn _ _ ihFirst ihSecond =>
      obtain ⟨fuel, hfirst⟩ := ihFirst
      obtain ⟨fuel', hsecond⟩ := ihSecond
      refine ⟨max fuel fuel' + 1, ?_⟩
      rw [compare_succ, hturn]
      exact follow_both_eq_some_iff.2 (.inr ⟨_, compare_mono (Nat.le_max_left _ _) hfirst,
        compare_mono (Nat.le_max_right _ _) hsecond⟩)
  · rintro ⟨fuel, h⟩
    induction fuel generalizing known known' sides answer with
    | zero => simp [compare_zero] at h
    | succ fuel ih =>
      rw [compare_succ] at h
      cases hturn : turn known sides with
      | done answer' found =>
        rw [hturn] at h
        cases h
        exact .done hturn
      | ask sides' =>
        rw [hturn] at h
        exact .ask hturn (ih h)
      | both first second =>
        rw [hturn] at h
        obtain ⟨rfl, hfirst⟩ | ⟨between, hfirst, hsecond⟩ := follow_both_eq_some_iff.1 h
        · exact .first hturn (ih hfirst)
        · exact .both hturn (ih hfirst) (ih hsecond)

theorem ends_iff {a b : Ty} : Ends a b answer ↔ ∃ known, Compares [] (.types a b) answer known := by
  simp only [compares_iff]
  exact exists_comm

theorem Compares.unique {known₁ known₂ : Known} {answer₁ answer₂ : Bool} (h₁ : Compares known sides answer₁ known₁)
    (h₂ : Compares known sides answer₂ known₂) : answer₁ = answer₂ ∧ known₁ = known₂ := by
  obtain ⟨fuel₁, h₁⟩ := compares_iff.1 h₁
  obtain ⟨fuel₂, h₂⟩ := compares_iff.1 h₂
  have heq := compare_mono (Nat.le_max_left fuel₁ fuel₂) h₁
  rw [compare_mono (Nat.le_max_right fuel₁ fuel₂) h₂] at heq
  cases heq
  exact ⟨rfl, rfl⟩

def Sides.Plain : Sides → Prop
  | .types a b => a.kind ≠ .unknown ∧ b.kind ≠ .unknown
  | .lists _ _ => True

def Loose (known : Known) (x : String) (ty : Ty) : Prop :=
  ∀ y, ty = unknown y → y ≠ x ∧ known.lookup y = none

theorem loose_unknown {x y : String} (hne : y ≠ x) (hy : known.lookup y = none) : Loose known x (unknown y) := by
  rintro _ ⟨⟩
  exact ⟨hne, hy⟩

theorem loose_of_kind {x : String} {ty : Ty} (h : ty.kind ≠ .unknown) : Loose known x ty := by
  rintro y rfl
  exact absurd rfl h

inductive Turns (known : Known) : Sides → Turn → Prop
  | same (x : String) : Turns known (.types (unknown x) (unknown x)) (.done true known)
  | followLeft {x : String} {b bound : Ty} : b ≠ unknown x → known.lookup x = some bound →
    Turns known (.types (unknown x) b) (.ask (.types bound b))
  | followRight {a bound : Ty} {y : String} : Loose known y a → known.lookup y = some bound →
    Turns known (.types a (unknown y)) (.ask (.types a bound))
  | bindLeft {x : String} {b : Ty} : Loose known x b → known.lookup x = none →
    Turns known (.types (unknown x) b) (.done true ((x, b) :: known))
  | bindRight {a : Ty} {y : String} : a.kind ≠ .unknown → known.lookup y = none →
    Turns known (.types a (unknown y)) (.done true ((y, a) :: known))
  | plain {sides : Sides} {t : Turn} : sides.Plain → turn known sides = t → Turns known sides t

theorem turns {t : Turn} (h : turn known sides = t) : Turns known sides t := by
  subst h
  cases sides with
  | lists as bs => exact .plain trivial rfl
  | types a b =>
    cases a with
    | unknown x =>
      cases b with
      | unknown y =>
        by_cases hxy : x = y
        · subst hxy
          simpa [turn] using Turns.same x
        · cases hx : known.lookup x with
          | some bound => simpa [turn, hxy, hx] using Turns.followLeft (by simpa using Ne.symm hxy) hx
          | none =>
            cases hy : known.lookup y with
            | some bound => simpa [turn, hxy, hx, hy] using Turns.followRight (loose_unknown hxy hx) hy
            | none => simpa [turn, hxy, hx, hy] using Turns.bindLeft (loose_unknown (Ne.symm hxy) hy) hx
      | _ =>
        cases hx : known.lookup x with
        | some bound => simpa [turn, hx] using Turns.followLeft (by simp) hx
        | none => simpa [turn, hx] using Turns.bindLeft (loose_of_kind (by simp [kind])) hx
    | _ =>
      cases b with
      | unknown y =>
        cases hy : known.lookup y with
        | some bound => simpa [turn, hy] using Turns.followRight (loose_of_kind (by simp [kind])) hy
        | none => simpa [turn, hy] using Turns.bindRight (by simp [kind]) hy
      | _ => exact .plain (by simp [Sides.Plain, kind]) rfl

def Sides.swap : Sides → Sides
  | .types a b => .types b a
  | .lists as bs => .lists bs as

def Turn.swap (known : Known) : Turn → Turn
  | .done answer _ => .done answer known
  | .ask sides => .ask sides.swap
  | .both first second => .both first.swap second.swap

theorem turn_swap {t : Turn} (h : sides.Plain) (hturn : turn known sides = t) (known' : Known) :
    turn known' sides.swap = t.swap known' := by
  subst hturn
  cases sides with
  | lists as bs => cases as <;> cases bs <;> simp [turn, Turn.swap, Sides.swap]
  | types a b =>
    obtain ⟨ha, hb⟩ := h
    cases a <;> cases b <;> simp_all [turn, Turn.swap, Sides.swap, kind]
    grind

theorem done_of_plain {known' : Known} (h : sides.Plain) (hturn : turn known sides = .done answer known') :
    known' = known := by
  cases sides with
  | lists as bs => cases as <;> cases bs <;> simp_all [turn]
  | types a b =>
    obtain ⟨ha, hb⟩ := h
    cases a <;> cases b <;> simp_all [turn, kind]
    grind

/-- What a type comes to when bindings are followed. Bindings are added in front, and a new one is for an
unknown to which nothing was bound, so the older ones are followed first. -/
def settle : Known → Ty → Ty
  | [], ty => ty
  | (x, bound) :: known, ty => if settle known ty = unknown x then bound else settle known ty

/-- Bindings of the kind that comparisons make: of an unknown that was not bound, to a type that is no
unknown or to another unknown that was not bound. -/
inductive Tidy : Known → Prop
  | nil : Tidy []
  | cons {known : Known} {x : String} {bound : Ty} : known.lookup x = none → Loose known x bound → Tidy known →
    Tidy ((x, bound) :: known)

section Settle

variable {known : Known} {x : String} {ty bound : Ty}

theorem settle_of_kind (h : ty.kind ≠ .unknown) : settle known ty = ty := by
  induction known with
  | nil => rfl
  | cons entry known ih =>
    rw [settle, ih, if_neg]
    rintro rfl
    exact h rfl

theorem settle_unknown (h : known.lookup x = none) : settle known (unknown x) = unknown x := by
  induction known with
  | nil => rfl
  | cons entry known ih =>
    rw [List.lookup_cons] at h
    split at h
    · cases h
    · rename_i hne
      rw [settle, ih h, if_neg]
      rintro ⟨⟩
      simp at hne

theorem settle_loose (h : Loose known x ty) : settle known ty = ty := by
  cases ty with
  | unknown y => exact settle_unknown (h y rfl).2
  | _ => exact settle_of_kind (by simp [kind])

theorem Loose.ne (h : Loose known x ty) : ty ≠ unknown x := by
  rintro rfl
  exact (h x rfl).1 rfl

theorem settle_cons_self (hx : known.lookup x = none) :
    settle ((x, bound) :: known) (unknown x) = bound := by
  rw [settle, settle_unknown hx, if_pos rfl]

theorem Tidy.settle_lookup (h : Tidy known) (hx : known.lookup x = some bound) :
    settle known (unknown x) = settle known bound := by
  induction h with
  | nil => cases hx
  | @cons known z other hz hother _ ih =>
    rw [List.lookup_cons] at hx
    split at hx
    · rename_i heq
      obtain rfl := eq_of_beq heq
      obtain rfl := Option.some.inj hx
      rw [settle_cons_self hz, settle, settle_loose hother, if_neg hother.ne]
    · rw [settle, settle, ih hx]

theorem Tidy.loose_settle (h : Tidy known) (hx : settle known ty = unknown x) : known.lookup x = none := by
  induction h generalizing ty with
  | nil => rfl
  | @cons known z other hz hother _ ih =>
    rw [settle] at hx
    split at hx
    · subst hx
      obtain ⟨hne, hfree⟩ := hother x rfl
      rw [List.lookup_cons, beq_false_of_ne hne]
      exact hfree
    · rename_i hne
      have hzx : x ≠ z := by
        rintro rfl
        exact hne hx
      rw [List.lookup_cons, beq_false_of_ne hzx]
      exact ih hx

def BoundTo (known : Known) (ty bound : Ty) : Prop :=
  ∃ x, ty = unknown x ∧ known.lookup x = some bound

theorem Tidy.follow_settle (h : Tidy known) (ty : Ty) :
    Relation.ReflTransGen (BoundTo known) ty (settle known ty) := by
  induction h with
  | nil => exact .refl
  | @cons known z other hz hother _ ih =>
    have hmore : Relation.ReflTransGen (BoundTo ((z, other) :: known)) ty (settle known ty) := by
      refine Relation.ReflTransGen.mono ?_ _ _ ih
      rintro _ bound ⟨y, rfl, hy⟩
      refine ⟨y, rfl, ?_⟩
      have hne : y ≠ z := by
        rintro rfl
        simp [hz] at hy
      rw [List.lookup_cons, beq_false_of_ne hne]
      exact hy
    rw [settle]
    split
    · rename_i heq
      exact hmore.tail ⟨z, heq, by simp⟩
    · exact hmore

end Settle

mutual

theorem compares_self (known : Known) : (ty : Ty) → Compares known (.types ty ty) true known
  | .unknown _ | .num | .str _ => .done (by simp [turn])
  | .lst [] _ _ => .done (by simp [turn])
  | .lst (ty :: rest) _ _ => .ask (by simp [turn]) (compares_self_all known (ty :: rest))
  | .arrow arg result => .both (by simp [turn]) (compares_self known arg) (compares_self known result)

theorem compares_self_all (known : Known) : (tys : List Ty) → Compares known (.lists tys tys) true known
  | [] => .done (by simp [turn])
  | ty :: rest => .both (by simp [turn]) (compares_self known ty) (compares_self_all known rest)

end

section Congruence

variable {known known' : Known} {a a' b b' : Ty} {answer : Bool}

theorem Compares.settled_of_plain (hplain : (Sides.types a b).Plain)
    (h : Compares known (.types a b) answer known') :
    Compares known (.types (settle known a) (settle known b)) answer known' := by
  rwa [settle_of_kind hplain.1, settle_of_kind hplain.2]

theorem Compares.settled (htidy : Tidy known) (h : Compares known (.types a b) answer known') :
    Compares known (.types (settle known a) (settle known b)) answer known' := by
  generalize hsides : Sides.types a b = sides at h
  induction h generalizing a b with
  | done hturn =>
    subst hsides
    cases turns hturn with
    | same x => exact compares_self _ _
    | bindLeft hloose hx =>
      rw [settle_unknown hx, settle_loose hloose]
      exact .done hturn
    | bindRight ha hy =>
      rw [settle_unknown hy, settle_of_kind ha]
      exact .done hturn
    | plain hplain => exact settled_of_plain hplain (.done hturn)
  | ask hturn hnext ih =>
    subst hsides
    cases turns hturn with
    | followLeft hne hx =>
      rw [htidy.settle_lookup hx]
      exact ih htidy rfl
    | followRight hloose hy =>
      rw [htidy.settle_lookup hy]
      exact ih htidy rfl
    | plain hplain => exact settled_of_plain hplain (.ask hturn hnext)
  | first hturn hfirst =>
    subst hsides
    cases turns hturn with
    | plain hplain => exact settled_of_plain hplain (.first hturn hfirst)
  | both hturn hfirst hsecond =>
    subst hsides
    cases turns hturn with
    | plain hplain => exact settled_of_plain hplain (.both hturn hfirst hsecond)

theorem turn_left {x : String} {bound : Ty} (hb : b ≠ unknown x) (hx : known.lookup x = some bound) :
    turn known (.types (unknown x) b) = .ask (.types bound b) := by
  cases b with
  | unknown y =>
    have hxy : x ≠ y := fun heq => hb (heq ▸ rfl)
    simp [turn, hxy, hx]
  | _ => simp [turn, hx]

theorem turn_right {y : String} {bound : Ty} (ha : Loose known y a) (hy : known.lookup y = some bound) :
    turn known (.types a (unknown y)) = .ask (.types a bound) := by
  cases a with
  | unknown x =>
    obtain ⟨hxy, hx⟩ := ha x rfl
    simp [turn, hxy, hx, hy]
  | _ => simp [turn, hy]

theorem turn_bindLeft {x : String} (hb : Loose known x b) (hx : known.lookup x = none) :
    turn known (.types (unknown x) b) = .done true ((x, b) :: known) := by
  cases b with
  | unknown y =>
    obtain ⟨hyx, hy⟩ := hb y rfl
    simp [turn, Ne.symm hyx, hx, hy]
  | _ => simp [turn, hx]

theorem turn_bindRight {y : String} (ha : a.kind ≠ .unknown) (hy : known.lookup y = none) :
    turn known (.types a (unknown y)) = .done true ((y, a) :: known) := by
  cases a with
  | unknown x => exact absurd rfl ha
  | _ => simp [turn, hy]

theorem Compares.followLeft (htidy : Tidy known) {x : String} {bound : Ty} (hx : known.lookup x = some bound)
    (h : Compares known (.types bound b) answer known') : Compares known (.types (unknown x) b) answer known' := by
  by_cases hb : b = unknown x
  · -- both sides come to the same, so they are compatible as they are
    subst hb
    have hsettled := h.settled htidy
    rw [htidy.settle_lookup hx] at hsettled
    obtain ⟨rfl, rfl⟩ := hsettled.unique (compares_self known _)
    exact compares_self _ _
  · exact .ask (turn_left hb hx) h

theorem Compares.of_follow_left (htidy : Tidy known) (hfollow : Relation.ReflTransGen (BoundTo known) a a')
    (h : Compares known (.types a' b) answer known') : Compares known (.types a b) answer known' := by
  induction hfollow using Relation.ReflTransGen.head_induction_on with
  | refl => exact h
  | head hbound _ ih =>
    obtain ⟨x, rfl, hx⟩ := hbound
    exact ih.followLeft htidy hx

theorem Compares.of_follow_right (ha : ∀ x, a = unknown x → known.lookup x = none)
    (hfollow : Relation.ReflTransGen (BoundTo known) b b') (h : Compares known (.types a b') answer known') :
    Compares known (.types a b) answer known' := by
  induction hfollow using Relation.ReflTransGen.head_induction_on with
  | refl => exact h
  | head hbound _ ih =>
    obtain ⟨y, rfl, hy⟩ := hbound
    refine .ask (turn_right (fun x hx => ⟨?_, ha x hx⟩) hy) ih
    rintro rfl
    simp [ha x hx] at hy

theorem Compares.of_settled (htidy : Tidy known)
    (h : Compares known (.types (settle known a) (settle known b)) answer known') :
    Compares known (.types a b) answer known' :=
  (h.of_follow_right (fun _ => htidy.loose_settle) (htidy.follow_settle b)).of_follow_left htidy
    (htidy.follow_settle a)

theorem Compares.congr (htidy : Tidy known) (ha : settle known a = settle known a')
    (hb : settle known b = settle known b') (h : Compares known (.types a b) answer known') :
    Compares known (.types a' b') answer known' := by
  refine .of_settled htidy ?_
  rw [← ha, ← hb]
  exact h.settled htidy

theorem Compares.tidy {sides : Sides} (h : Compares known sides answer known') (htidy : Tidy known) :
    Tidy known' := by
  induction h with
  | done hturn =>
    cases turns hturn with
    | same => exact htidy
    | bindLeft hloose hx => exact .cons hx hloose htidy
    | bindRight ha hy => exact .cons hy (loose_of_kind ha) htidy
    | plain hplain => exact done_of_plain hplain hturn ▸ htidy
  | ask _ _ ih => exact ih htidy
  | first _ _ ih => exact ih htidy
  | both _ _ _ ihFirst ihSecond => exact ihSecond (ihFirst htidy)

end Congruence

/-- Bindings under which types come to the same, up to which of several unknowns stands for them. -/
structure Alike (known known' : Known) : Prop where
  plain : ∀ ty : Ty, (settle known ty).kind ≠ .unknown ∨ (settle known' ty).kind ≠ .unknown →
    settle known' ty = settle known ty
  same : ∀ a b : Ty, settle known a = settle known b ↔ settle known' a = settle known' b

namespace Alike

variable {known known' : Known} {a b : Ty}

theorem unknown {x : String} (h : Alike known known') (hx : known.lookup x = none) :
    ∃ y, settle known' (.unknown x) = .unknown y := by
  cases hy : settle known' (.unknown x) with
  | unknown y => exact ⟨y, rfl⟩
  | _ =>
    have heq := h.plain (.unknown x) (.inr (by simp [hy, kind]))
    rw [hy, settle_unknown hx] at heq
    cases heq

theorem merge {x y x' y' : String} (h : Alike known known') (hx : settle known a = .unknown x)
    (hy : settle known b = .unknown y) (hx' : settle known' a = .unknown x') (hy' : settle known' b = .unknown y') :
    Alike ((x, .unknown y) :: known) ((y', .unknown x') :: known') := by
  constructor
  · intro ty hty
    have := h.same ty a
    have := h.same ty b
    have := h.plain ty
    simp only [settle] at hty ⊢
    grind [kind]
  · intro c d
    have := h.same c d
    have := h.same c a
    have := h.same c b
    have := h.same d a
    have := h.same d b
    simp only [settle]
    grind

theorem give {x x' : String} {bound : Ty} (h : Alike known known') (hx : settle known a = .unknown x)
    (hx' : settle known' a = .unknown x') (hbound : bound.kind ≠ .unknown) :
    Alike ((x, bound) :: known) ((x', bound) :: known') := by
  constructor
  · intro ty hty
    have := h.same ty a
    have := h.plain ty
    simp only [settle] at hty ⊢
    grind [kind]
  · intro c d
    have := h.same c d
    have := h.same c a
    have := h.same d a
    have := h.plain c
    have := h.plain d
    simp only [settle]
    grind

end Alike

theorem Compares.swap {known known₁ known' : Known} {sides : Sides} {answer : Bool}
    (h : Compares known sides answer known₁) (htidy : Tidy known) (htidy' : Tidy known')
    (halike : Alike known known') :
    ∃ known₁', Compares known' sides.swap answer known₁' ∧ Alike known₁ known₁' := by
  induction h generalizing known' with
  | done hturn =>
    cases turns hturn with
    | same x => exact ⟨known', compares_self known' _, halike⟩
    | @bindLeft x b hloose hx =>
      obtain ⟨x', hx'⟩ := halike.unknown hx
      have hfree := htidy'.loose_settle hx'
      cases b with
      | unknown y =>
        obtain ⟨hne, hy⟩ := hloose y rfl
        obtain ⟨y', hy'⟩ := halike.unknown hy
        have hne' : x' ≠ y' := by
          rintro rfl
          have heq := (halike.same _ _).2 (hy'.trans hx'.symm)
          rw [settle_unknown hy, settle_unknown hx] at heq
          cases heq
          exact hne rfl
        refine ⟨_, .of_settled htidy' ?_, halike.merge (settle_unknown hx) (settle_unknown hy) hx' hy'⟩
        rw [hy', hx']
        exact .done (turn_bindLeft (loose_unknown hne' hfree) (htidy'.loose_settle hy'))
      | _ =>
        refine ⟨_, .of_settled htidy' ?_, halike.give (settle_unknown hx) hx' (by simp [kind])⟩
        rw [settle_of_kind (by simp [kind]), hx']
        exact .done (turn_bindRight (by simp [kind]) hfree)
    | @bindRight a y ha hy =>
      obtain ⟨y', hy'⟩ := halike.unknown hy
      refine ⟨_, .of_settled htidy' ?_, halike.give (settle_unknown hy) hy' ha⟩
      rw [settle_of_kind ha, hy']
      exact .done (turn_bindLeft (loose_of_kind ha) (htidy'.loose_settle hy'))
    | plain hplain =>
      obtain rfl := done_of_plain hplain hturn
      exact ⟨known', .done (turn_swap hplain hturn known'), halike⟩
  | ask hturn _ ih =>
    obtain ⟨known₁', hcompares, halike'⟩ := ih htidy htidy' halike
    refine ⟨known₁', ?_, halike'⟩
    cases turns hturn with
    | followLeft hne hx =>
      exact hcompares.congr htidy' rfl ((halike.same _ _).1 (htidy.settle_lookup hx).symm)
    | followRight hloose hy =>
      exact hcompares.congr htidy' ((halike.same _ _).1 (htidy.settle_lookup hy).symm) rfl
    | plain hplain => exact .ask (turn_swap hplain hturn known') hcompares
  | first hturn _ ih =>
    obtain ⟨known₁', hcompares, halike'⟩ := ih htidy htidy' halike
    cases turns hturn with
    | plain hplain => exact ⟨known₁', .first (turn_swap hplain hturn known') hcompares, halike'⟩
  | both hturn hfirst _ ihFirst ihSecond =>
    obtain ⟨between', hfirst', halikeBetween⟩ := ihFirst htidy htidy' halike
    obtain ⟨known₁', hsecond', halike'⟩ := ihSecond (hfirst.tidy htidy) (hfirst'.tidy htidy') halikeBetween
    cases turns hturn with
    | plain hplain => exact ⟨known₁', .both (turn_swap hplain hturn known') hfirst' hsecond', halike'⟩

theorem Ends.symm {a b : Ty} {answer : Bool} (h : Ends a b answer) : Ends b a answer := by
  obtain ⟨known, hcompares⟩ := ends_iff.1 h
  obtain ⟨known', hcompares', -⟩ := hcompares.swap .nil .nil ⟨fun _ _ => rfl, fun _ _ => Iff.rfl⟩
  exact ends_iff.2 ⟨known', hcompares'⟩

/-- Compatibility is symmetric: where the comparison of two types ends, the one the other way round ends too
and gives the same answer, and where one of them goes round in circles, so does the other. -/
theorem equals?_comm (a b : Ty) :
    a.equals? b = b.equals? a ∧ ∀ answer, a.equals? b = some answer ↔ Ends a b answer := by
  refine ⟨?_, fun answer => equals?_eq_some_iff⟩
  have hboth (answer : Bool) : a.equals? b = some answer ↔ b.equals? a = some answer := by
    rw [equals?_eq_some_iff, equals?_eq_some_iff]
    exact ⟨Ends.symm, Ends.symm⟩
  exact Option.ext hboth

end PullScript.Ty
