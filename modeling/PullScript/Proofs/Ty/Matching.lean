import PullScript.Proofs.Ty.Applying
import PullScript.Proofs.Ty.Symmetry

namespace PullScript.Ty

mutual

def bare : Ty → Ty
  | unknown name => unknown name
  | num => num
  | str _ => str false
  | lst elements _ _ => lst (bareAll elements) false false
  | arrow arg result => arrow arg.bare result.bare

def bareAll : List Ty → List Ty
  | [] => []
  | ty :: rest => ty.bare :: bareAll rest

end

mutual

def isTyped : Ty → Bool
  | lst elements _ _ => !elements.isEmpty && allTyped elements
  | arrow arg result => arg.isTyped && result.isTyped
  | _ => true

def allTyped : List Ty → Bool
  | [] => true
  | ty :: rest => ty.isTyped && allTyped rest

end

theorem length_bareAll (tys : List Ty) : (bareAll tys).length = tys.length := by
  induction tys with
  | nil => rfl
  | cons ty rest ih => rw [bareAll, List.length_cons, List.length_cons, ih]

theorem length_substitutedAll (σ : String → Ty) (tys : List Ty) : (substitutedAll σ tys).length = tys.length := by
  rw [substitutedAll_eq_map, List.length_map]

mutual

theorem substituted_concrete (σ : String → Ty) : (ty : Ty) → ty.isConcrete = true → ty.substituted σ = ty
  | .unknown _, h => by simp [isConcrete] at h
  | .num, _ => rfl
  | .str _, _ => rfl
  | .lst elements _ _, h => by rw [substituted, substitutedAll_concrete σ elements (by simpa [isConcrete] using h)]
  | .arrow arg result, h => by
    simp only [isConcrete, Bool.and_eq_true] at h
    rw [substituted, substituted_concrete σ arg h.1, substituted_concrete σ result h.2]

theorem substitutedAll_concrete (σ : String → Ty) :
    (tys : List Ty) → allConcrete tys = true → substitutedAll σ tys = tys
  | [], _ => rfl
  | ty :: rest, h => by
    simp only [allConcrete, Bool.and_eq_true] at h
    rw [substitutedAll, substituted_concrete σ ty h.1, substitutedAll_concrete σ rest h.2]

end

/-- Unknowns are bound to types without unknowns, all lists in which have element types. -/
def Ground (known : Known) : Prop :=
  ∀ x bound, known.lookup x = some bound → bound.isConcrete = true ∧ bound.isTyped = true

/-- What is put in the place of unknowns is what they are bound to, but for the marks. -/
def Agrees (σ : String → Ty) (known : Known) : Prop :=
  ∀ x bound, known.lookup x = some bound → (σ x).bare = bound.bare

theorem Ground.cons {known : Known} {x : String} {bound : Ty} (h : Ground known) (hconcrete : bound.isConcrete = true)
    (htyped : bound.isTyped = true) : Ground ((x, bound) :: known) := by
  intro y found hy
  rw [List.lookup_cons] at hy
  split at hy
  · obtain rfl := Option.some.inj hy
    exact ⟨hconcrete, htyped⟩
  · exact h y found hy

theorem agrees_cons_iff {σ : String → Ty} {known : Known} {x : String} {bound : Ty} (hx : known.lookup x = none) :
    Agrees σ ((x, bound) :: known) ↔ Agrees σ known ∧ (σ x).bare = bound.bare := by
  constructor
  · intro h
    refine ⟨fun y found hy => h y found ?_, h x bound (by simp)⟩
    have hne : y ≠ x := by
      rintro rfl
      simp [hx] at hy
    rw [List.lookup_cons, beq_false_of_ne hne]
    exact hy
  · rintro ⟨h, hbound⟩ y found hy
    rw [List.lookup_cons] at hy
    split at hy
    · rename_i heq
      obtain rfl := eq_of_beq heq
      rw [hbound, Option.some.inj hy]
    · exact h y found hy

/-- A comparison ends and finds out whether something can be put in the place of the unknowns so that
`holds`: if so, the bindings afterwards say what, and if not, nothing that agrees with the bindings will do. -/
def Decides (known : Known) (sides : Sides) (holds : (String → Ty) → Prop) : Prop :=
  ∃ known', Ground known' ∧
    ((Compares known sides true known' ∧ ∀ σ, Agrees σ known' ↔ Agrees σ known ∧ holds σ) ∨
      (Compares known sides false known' ∧ ∀ σ, Agrees σ known → ¬ holds σ))

namespace Decides

variable {known : Known} {sides first second : Sides} {holds holds' : (String → Ty) → Prop}

theorem yes (hground : Ground known) (hturn : turn known sides = .done true known) (hholds : ∀ σ, holds σ) :
    Decides known sides holds :=
  ⟨known, hground, .inl ⟨.done hturn, fun σ => (and_iff_left (hholds σ)).symm⟩⟩

theorem no (hground : Ground known) (hturn : turn known sides = .done false known) (hholds : ∀ σ, ¬ holds σ) :
    Decides known sides holds :=
  ⟨known, hground, .inr ⟨.done hturn, fun σ _ => hholds σ⟩⟩

theorem ask (hturn : turn known sides = .ask first) (h : Decides known first holds) : Decides known sides holds := by
  obtain ⟨known', hground, ⟨hcompares, hagrees⟩ | ⟨hcompares, hagrees⟩⟩ := h
  · exact ⟨known', hground, .inl ⟨.ask hturn hcompares, hagrees⟩⟩
  · exact ⟨known', hground, .inr ⟨.ask hturn hcompares, hagrees⟩⟩

theorem both (hturn : turn known sides = .both first second) (h : Decides known first holds)
    (h' : ∀ between, Ground between → Decides between second holds') :
    Decides known sides fun σ => holds σ ∧ holds' σ := by
  obtain ⟨between, hground, ⟨hfirst, hagrees⟩ | ⟨hfirst, hagrees⟩⟩ := h
  · obtain ⟨known', hground', ⟨hsecond, hagrees'⟩ | ⟨hsecond, hagrees'⟩⟩ := h' between hground
    · refine ⟨known', hground', .inl ⟨.both hturn hfirst hsecond, fun σ => ?_⟩⟩
      rw [hagrees', hagrees, and_assoc]
    · refine ⟨known', hground', .inr ⟨.both hturn hfirst hsecond, fun σ hσ hboth => ?_⟩⟩
      exact hagrees' σ ((hagrees σ).2 ⟨hσ, hboth.1⟩) hboth.2
  · exact ⟨between, hground, .inr ⟨.first hturn hfirst, fun σ hσ hboth => hagrees σ hσ hboth.1⟩⟩

theorem congr (h : Decides known sides holds) (hiff : ∀ σ, Agrees σ known → (holds σ ↔ holds' σ)) :
    Decides known sides holds' := by
  obtain ⟨known', hground, ⟨hcompares, hagrees⟩ | ⟨hcompares, hagrees⟩⟩ := h
  · exact ⟨known', hground, .inl ⟨hcompares, fun σ => (hagrees σ).trans (and_congr_right (hiff σ))⟩⟩
  · exact ⟨known', hground, .inr ⟨hcompares, fun σ hσ => (hiff σ hσ).not.1 (hagrees σ hσ)⟩⟩

end Decides

/-- Comparing an unknown with a type decides whether it can stand for that type. -/
def DecidesUnknowns : Prop :=
  ∀ known x b, Ground known → b.isConcrete = true → b.isTyped = true →
    Decides known (.types (unknown x) b) fun σ => (σ x).bare = b.bare

mutual

/-- Comparing decides whether one type can become the other, if that is so for unknowns or if there are
none. -/
theorem decides (known : Known) (hground : Ground known) : (a b : Ty) →
    (hunknowns : a.isConcrete = true ∨ DecidesUnknowns) → a.isTyped = true → b.isConcrete = true → b.isTyped = true →
    Decides known (.types a b) fun σ => (a.substituted σ).bare = b.bare
  | .unknown x, b, hunknowns, _, hb, hbt => by
    obtain hno | hunknowns := hunknowns
    · simp [isConcrete] at hno
    · exact hunknowns known x b hground hb hbt
  | .lst as _ _, .lst bs _ _, hunknowns, hat, hb, hbt => by
    simp only [isConcrete, isTyped, Bool.and_eq_true, Bool.not_eq_true'] at hunknowns hat hb hbt
    by_cases hlength : as.length = bs.length
    · have hall := decidesAll known hground as bs hunknowns hat.2 hb hbt.2 hlength
      exact (Decides.ask (by simp [turn, hat.1, hbt.1, hlength]) hall).congr fun σ _ => by simp [substituted, bare]
    · refine .no hground (by simp [turn, hat.1, hbt.1, hlength]) fun σ heq => hlength ?_
      simp only [substituted, bare, lst.injEq] at heq
      simpa [length_bareAll, length_substitutedAll] using congrArg List.length heq.1
  | .arrow arg result, .arrow arg' result', hunknowns, hat, hb, hbt => by
    simp only [isConcrete, isTyped, Bool.and_eq_true] at hunknowns hat hb hbt
    have harg := decides known hground arg arg' (hunknowns.imp_left And.left) hat.1 hb.1 hbt.1
    have hresult := fun between hbetween =>
      decides between hbetween result result' (hunknowns.imp_left And.right) hat.2 hb.2 hbt.2
    exact (Decides.both (by simp [turn]) harg hresult).congr fun σ _ => by simp [substituted, bare]
  | .num, .num, _, _, _, _ | .str _, .str _, _, _, _, _ =>
    .yes hground (by simp [turn]) fun σ => by simp [substituted, bare]
  | .num, .unknown _, _, _, hb, _ | .str _, .unknown _, _, _, hb, _ | .lst .., .unknown _, _, _, hb, _
  | .arrow .., .unknown _, _, _, hb, _ => by simp [isConcrete] at hb
  | .num, .str _, _, _, _, _ | .num, .lst .., _, _, _, _ | .num, .arrow .., _, _, _, _
  | .str _, .num, _, _, _, _ | .str _, .lst .., _, _, _, _ | .str _, .arrow .., _, _, _, _
  | .lst .., .num, _, _, _, _ | .lst .., .str _, _, _, _, _ | .lst .., .arrow .., _, _, _, _
  | .arrow .., .num, _, _, _, _ | .arrow .., .str _, _, _, _, _ | .arrow .., .lst .., _, _, _, _ =>
    .no hground (by simp [turn]) fun σ => by simp [substituted, bare]

theorem decidesAll (known : Known) (hground : Ground known) : (as bs : List Ty) →
    (hunknowns : allConcrete as = true ∨ DecidesUnknowns) → allTyped as = true → allConcrete bs = true →
    allTyped bs = true → as.length = bs.length →
    Decides known (.lists as bs) fun σ => bareAll (substitutedAll σ as) = bareAll bs
  | [], [], _, _, _, _, _ => .yes hground (by simp [turn]) fun σ => by simp [substitutedAll]
  | a :: as, b :: bs, hunknowns, hat, hb, hbt, hlength => by
    simp only [allConcrete, allTyped, Bool.and_eq_true] at hunknowns hat hb hbt
    have hfirst := decides known hground a b (hunknowns.imp_left And.left) hat.1 hb.1 hbt.1
    have hrest := fun between hbetween => decidesAll between hbetween as bs (hunknowns.imp_left And.right) hat.2
      hb.2 hbt.2 (Nat.succ.inj hlength)
    exact (Decides.both (by simp [turn]) hfirst hrest).congr fun σ _ => by simp [substitutedAll, bareAll]
  | [], _ :: _, _, _, _, _, hlength | _ :: _, [], _, _, _, _, hlength => by simp at hlength

end

theorem decides_unknown : DecidesUnknowns := by
  intro known x b hground hb hbt
  have hne : b.kind ≠ .unknown := by cases b <;> simp_all [isConcrete, kind]
  cases hx : known.lookup x with
  | none =>
    exact ⟨(x, b) :: known, hground.cons hb hbt, .inl ⟨.done (turn_bindLeft (loose_of_kind hne) hx),
      fun σ => agrees_cons_iff hx⟩⟩
  | some bound =>
    obtain ⟨hconcrete, htyped⟩ := hground x bound hx
    have hdecides := decides known hground bound b (.inl hconcrete) htyped hb hbt
    refine Decides.ask (turn_left (by rintro rfl; exact hne rfl) hx) (hdecides.congr fun σ hσ => ?_)
    rw [substituted_concrete σ bound hconcrete, hσ x bound hx]

/-- Comparing a type with one that has no unknowns ends, and they are compatible when something can be put in
the place of each unknown so that the one becomes the other, marks apart. It does not matter which is on which
side. -/
theorem equals?_eq_matching (a b : Ty) (hconcrete : b.isConcrete = true) (ha : a.isTyped = true)
    (hb : b.isTyped = true) :
    ∃ answer, a.equals? b = some answer ∧ b.equals? a = some answer ∧
      (answer = true ↔ ∃ σ, (a.substituted σ).bare = b.bare) := by
  have hnone (σ : String → Ty) : Agrees σ [] := fun x bound hx => by simp at hx
  obtain ⟨known, -, hdecides⟩ :=
    decides [] (fun x bound hx => by simp at hx) a b (.inr decides_unknown) ha hconcrete hb
  have hboth {answer : Bool} (hcompares : Compares [] (.types a b) answer known) :
      a.equals? b = some answer ∧ b.equals? a = some answer :=
    ⟨equals?_eq_some_iff.2 (ends_iff.2 ⟨known, hcompares⟩),
      equals?_eq_some_iff.2 (ends_iff.2 ⟨known, hcompares⟩).symm⟩
  obtain ⟨hcompares, hagrees⟩ | ⟨hcompares, hagrees⟩ := hdecides
  · refine ⟨true, (hboth hcompares).1, (hboth hcompares).2, fun _ => ?_, fun _ => rfl⟩
    let σ : String → Ty := fun x => (known.lookup x).getD (unknown x)
    have hσ : Agrees σ known := fun x bound hx => by simp [σ, hx]
    exact ⟨σ, ((hagrees σ).1 hσ).2⟩
  · refine ⟨false, (hboth hcompares).1, (hboth hcompares).2, fun h => by simp at h, ?_⟩
    rintro ⟨σ, hσ⟩
    exact absurd hσ (hagrees σ (hnone σ))

/-- An unknown that is met twice, the second time with another mark, and a pair in the place of a list. -/
theorem equals?_eq_matching_twice :
    (arrow (lst [str false, str true] false true) num).isConcrete = true ∧
      (arrow (listOf [unknown "a", unknown "a"] true) (unknown "b")).isTyped = true ∧
      (arrow (lst [str false, str true] false true) num).isTyped = true ∧
      (arrow (listOf [unknown "a", unknown "a"] true) (unknown "b")).equals?
        (arrow (lst [str false, str true] false true) num) = some true := by
  refine ⟨rfl, rfl, rfl, ?_⟩
  obtain ⟨answer, hequals, -, hanswer⟩ := equals?_eq_matching
    (arrow (listOf [unknown "a", unknown "a"] true) (unknown "b"))
    (arrow (lst [str false, str true] false true) num) rfl rfl rfl
  rw [hequals, hanswer.2 ⟨fun name => if name = "a" then str true else num, by decide⟩]

end PullScript.Ty
