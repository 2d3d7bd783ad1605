import PullScript.Ty.Apply

namespace PullScript.Ty

variable {s step : Step} {p : List Step} {met ty part : Ty} {name : String} {k : Nat} {formals actuals : List Ty}
  {vs : List Visit} {m : Match} {σ τ : String → Ty}

inductive Step where
  | element (k : Nat)
  | arg
  | result
deriving DecidableEq, Repr

def part? : Ty → Step → Option Ty
  | lst elements _ _, .element k => elements[k]?
  | arrow arg _, .arg => some arg
  | arrow _ result, .result => some result
  | _, _ => none

def at? (ty : Ty) : List Step → Option Ty
  | [] => some ty
  | step :: rest =>
    match ty.part? step with
    | some part => part.at? rest
    | none => none

def Step.Before : Step → Step → Prop
  | .element i, .element j => i < j
  | .arg, .result => True
  | _, _ => False

/-- Positions from left to right, the positions inside a part before the part. -/
inductive Before : List Step → List Step → Prop
  | inside (step : Step) (rest : List Step) : Before (step :: rest) []
  | left {step step' : Step} (rest rest' : List Step) : step.Before step' → Before (step :: rest) (step' :: rest')
  | under {p q : List Step} (step : Step) : Before p q → Before (step :: p) (step :: q)

theorem Step.Before.asymm {t : Step} (h : s.Before t) : ¬ t.Before s := by
  cases s <;> cases t <;> simp_all [Step.Before]
  omega

theorem Before.asymm {q : List Step} (h : Before p q) : ¬ Before q p := by
  induction h with
  | inside step rest =>
    intro h
    cases h
  | left rest rest' hstep =>
    intro h
    cases h with
    | left _ _ hback => exact hstep.asymm hback
    | under step _ => exact hstep.asymm hstep
  | under step hpq ih =>
    intro h
    cases h with
    | left _ _ hback => exact hback.asymm hback
    | under _ hqp => exact ih hqp

mutual

def marked (endless : Bool) : Ty → Ty
  | unknown name => unknown name
  | num => num
  | str _ => str endless
  | lst elements _ tuple => lst (markedAll endless elements) (!tuple && endless) tuple
  | arrow arg result => arrow (arg.marked endless) (result.marked endless)

def markedAll (endless : Bool) : List Ty → List Ty
  | [] => []
  | ty :: rest => ty.marked endless :: markedAll endless rest

end

mutual

def substituted (σ : String → Ty) : Ty → Ty
  | unknown name => σ name
  | num => num
  | str endless => str endless
  | lst elements endless tuple => lst (substitutedAll σ elements) endless tuple
  | arrow arg result => arrow (arg.substituted σ) (result.substituted σ)

def substitutedAll (σ : String → Ty) : List Ty → List Ty
  | [] => []
  | ty :: rest => ty.substituted σ :: substitutedAll σ rest

end

def SameShape (a b : Ty) : Prop :=
  a.marked false = b.marked false

/-- The part of `actual` at the first position where `formal` has the unknown `name`; the unknown
itself if there is none. -/
def FirstMet (formal actual : Ty) (name : String) (met : Ty) : Prop :=
  (∃ p, formal.at? p = some (.unknown name) ∧ actual.at? p = some met ∧
    ∀ q, formal.at? q = some (.unknown name) → (actual.at? q).isSome → q = p ∨ Before p q) ∨
  ((∀ p, formal.at? p = some (.unknown name) → actual.at? p = none) ∧ met = .unknown name)

/-- The mark of `actual` at the last position where `formal` is marked endless, set if there is none. -/
def LastMark (formal actual : Ty) (mark : Bool) : Prop :=
  (∃ p f a, formal.at? p = some f ∧ f.isEndless ∧ actual.at? p = some a ∧ mark = a.isEndless ∧
    ∀ q f', formal.at? q = some f' → f'.isEndless → (actual.at? q).isSome → q = p ∨ Before q p) ∨
  ((∀ p f, formal.at? p = some f → f.isEndless → actual.at? p = none) ∧ mark = true)

theorem FirstMet.unique {formal actual met' : Ty} (h : FirstMet formal actual name met)
    (h' : FirstMet formal actual name met') : met = met' := by
  obtain ⟨p, hp, hmet, hfirst⟩ | ⟨hnone, rfl⟩ := h <;>
    obtain ⟨q, hq, hmet', hfirst'⟩ | ⟨hnone', rfl⟩ := h'
  · obtain rfl : q = p := by
      obtain rfl | hpq := hfirst q hq (by simp [hmet'])
      · rfl
      · exact (hfirst' p hp (by simp [hmet])).elim Eq.symm fun hqp => absurd hqp hpq.asymm
    exact Option.some.inj (hmet.symm.trans hmet')
  · simp [hnone' p hp] at hmet
  · simp [hnone q hq] at hmet'
  · rfl

theorem LastMark.unique {formal actual : Ty} {mark mark' : Bool} (h : LastMark formal actual mark)
    (h' : LastMark formal actual mark') : mark = mark' := by
  obtain ⟨p, f, a, hp, hf, ha, rfl, hlast⟩ | ⟨hnone, rfl⟩ := h <;>
    obtain ⟨q, g, b, hq, hg, hb, rfl, hlast'⟩ | ⟨hnone', rfl⟩ := h'
  · obtain rfl : q = p := by
      obtain rfl | hqp := hlast q g hq hg (by simp [hb])
      · rfl
      · exact (hlast' p f hp hf (by simp [ha])).elim Eq.symm fun hpq => absurd hpq hqp.asymm
    rw [Option.some.inj (ha.symm.trans hb)]
  · simp [hnone' p f hp hf] at ha
  · simp [hnone q g hq hg] at hb
  · rfl

structure Visit where
  position : List Step
  formal : Ty
  actual : Ty

def Visit.under (step : Step) (v : Visit) : Visit :=
  { v with position := step :: v.position }

mutual

def visits : Ty → Ty → List Visit
  | .lst formals endless tuple, actual =>
    visitsAll 0 formals actual.elements ++ [⟨[], .lst formals endless tuple, actual⟩]
  | .arrow arg result, .arrow arg' result' =>
    (visits arg arg').map (.under .arg) ++ (visits result result').map (.under .result) ++
      [⟨[], .arrow arg result, .arrow arg' result'⟩]
  | formal, actual => [⟨[], formal, actual⟩]

def visitsAll (k : Nat) : List Ty → List Ty → List Visit
  | formal :: formals, actual :: actuals =>
    (visits formal actual).map (.under (.element k)) ++ visitsAll (k + 1) formals actuals
  | _, _ => []

end

variable {formal actual : Ty} {v : Visit}

def Common (formal actual : Ty) (v : Visit) : Prop :=
  formal.at? v.position = some v.formal ∧ actual.at? v.position = some v.actual

theorem common_iff :
    Common formal actual v ↔ v = ⟨[], formal, actual⟩ ∨
      ∃ step f a u, formal.part? step = some f ∧ actual.part? step = some a ∧ Common f a u ∧ v = u.under step := by
  obtain ⟨_ | ⟨step, rest⟩, f, a⟩ := v
  · simp [Common, at?, Visit.under, eq_comm]
  · constructor
    · rintro ⟨hf, ha⟩
      simp only [at?] at hf ha
      split at hf <;> split at ha <;> try contradiction
      rename_i f' hf' _ a' ha'
      exact .inr ⟨step, f', a', ⟨rest, f, a⟩, hf', ha', ⟨hf, ha⟩, rfl⟩
    · rintro (h | ⟨_, f', a', u, hf', ha', hu, ⟨⟩⟩)
      · cases h
      · exact ⟨by simpa [at?, hf'] using hu.1, by simpa [at?, ha'] using hu.2⟩

/-- Both lists have an element with a part at the position, the elements being numbered from `k` on. -/
def CommonAll (k : Nat) (formals actuals : List Ty) (v : Visit) : Prop :=
  ∃ (i : Nat) (f a : Ty) (u : Visit), formals[i]? = some f ∧ actuals[i]? = some a ∧ Common f a u ∧
    v = u.under (.element (k + i))

theorem commonAll_cons_iff :
    CommonAll k (formal :: formals) (actual :: actuals) v ↔
      (∃ u, Common formal actual u ∧ v = u.under (.element k)) ∨ CommonAll (k + 1) formals actuals v := by
  constructor
  · rintro ⟨_ | i, f, a, u, hf, ha, hu, rfl⟩
    · cases hf
      cases ha
      exact .inl ⟨u, hu, rfl⟩
    · exact .inr ⟨i, f, a, u, hf, ha, hu, by rw [Nat.add_right_comm, Nat.add_assoc]⟩
  · rintro (⟨u, hu, rfl⟩ | ⟨i, f, a, u, hf, ha, hu, rfl⟩)
    · exact ⟨0, formal, actual, u, rfl, rfl, hu, rfl⟩
    · exact ⟨i + 1, f, a, u, hf, ha, hu, by rw [Nat.add_right_comm, Nat.add_assoc]⟩

theorem common_lst_iff {endless tuple : Bool} :
    Common (.lst formals endless tuple) actual v ↔
      CommonAll 0 formals actual.elements v ∨ v = ⟨[], .lst formals endless tuple, actual⟩ := by
  have hpart : ∀ k, actual.part? (.element k) = actual.elements[k]? := by
    cases actual <;> simp [part?, elements]
  rw [common_iff, or_comm]
  refine or_congr_left ⟨?_, ?_⟩
  · rintro ⟨step, f, a, u, hf, ha, hu, rfl⟩
    cases step with
    | element k => exact ⟨k, f, a, u, hf, (hpart k) ▸ ha, hu, by rw [Nat.zero_add]⟩
    | arg => cases hf
    | result => cases hf
  · rintro ⟨i, f, a, u, hf, ha, hu, rfl⟩
    exact ⟨.element i, f, a, u, hf, (hpart i).trans ha, hu, by rw [Nat.zero_add]⟩

theorem common_arrow_iff {arg result arg' result' : Ty} :
    Common (.arrow arg result) (.arrow arg' result') v ↔
      ((∃ u, Common arg arg' u ∧ v = u.under .arg) ∨ ∃ u, Common result result' u ∧ v = u.under .result) ∨
        v = ⟨[], .arrow arg result, .arrow arg' result'⟩ := by
  rw [common_iff, or_comm]
  refine or_congr_left ⟨?_, ?_⟩
  · rintro ⟨step, f, a, u, hf, ha, hu, rfl⟩
    cases step with
    | element k => cases hf
    | arg =>
      cases hf
      cases ha
      exact .inl ⟨u, hu, rfl⟩
    | result =>
      cases hf
      cases ha
      exact .inr ⟨u, hu, rfl⟩
  · rintro (⟨u, hu, rfl⟩ | ⟨u, hu, rfl⟩)
    · exact ⟨.arg, arg, arg', u, rfl, rfl, hu, rfl⟩
    · exact ⟨.result, result, result', u, rfl, rfl, hu, rfl⟩

theorem common_iff_eq (h : ∀ step f a, formal.part? step = some f → actual.part? step ≠ some a) :
    Common formal actual v ↔ v = ⟨[], formal, actual⟩ := by
  rw [common_iff, or_iff_left_iff_imp]
  rintro ⟨step, f, a, u, hf, ha, -⟩
  exact absurd ha (h step f a hf)

theorem mem_map_under_iff : v ∈ vs.map (.under step) ↔ ∃ u ∈ vs, v = u.under step := by
  simp only [List.mem_map, eq_comm]

mutual

theorem mem_visits_iff {v : Visit} : (formal actual : Ty) → (v ∈ visits formal actual ↔ Common formal actual v)
  | .unknown _, _ | .num, _ | .str _, _ => by
    rw [common_iff_eq (by simp [part?]), visits, List.mem_singleton] <;> simp
  | .lst formals endless tuple, actual => by
    rw [visits, List.mem_append, mem_visitsAll_iff formals actual.elements, List.mem_singleton, common_lst_iff]
  | .arrow arg result, .arrow arg' result' => by
    simp only [visits, List.mem_append, mem_map_under_iff, mem_visits_iff arg arg',
      mem_visits_iff result result', List.mem_singleton, common_arrow_iff]
  | .arrow arg result, .unknown _ | .arrow arg result, .num | .arrow arg result, .str _
  | .arrow arg result, .lst .. => by
    rw [common_iff_eq, visits, List.mem_singleton]
    · simp
    · simp
    · intro step
      cases step <;> simp [part?]

theorem mem_visitsAll_iff {k : Nat} {v : Visit} :
    (formals actuals : List Ty) → (v ∈ visitsAll k formals actuals ↔ CommonAll k formals actuals v)
  | formal :: formals, actual :: actuals => by
    simp only [visitsAll, List.mem_append, mem_map_under_iff, mem_visits_iff formal actual,
      mem_visitsAll_iff formals actuals, commonAll_cons_iff]
  | [], actuals => by simp [visitsAll, CommonAll]
  | formal :: formals, [] => by simp [visitsAll, CommonAll]

end

abbrev Ordered (vs : List Visit) : Prop :=
  vs.Pairwise fun u v => Before u.position v.position

theorem Ordered.map_under (h : Ordered vs) (step : Step) : Ordered (vs.map (.under step)) :=
  List.pairwise_map.2 (h.imp fun huv => .under step huv)

theorem Ordered.append_left {us : List Visit} (hus : Ordered us) (hvs : Ordered vs)
    (hu : ∀ u ∈ us, ∃ rest, u.position = s :: rest) (hv : ∀ v ∈ vs, ∃ t rest, v.position = t :: rest ∧ s.Before t) :
    Ordered (us ++ vs) := by
  refine List.pairwise_append.2 ⟨hus, hvs, fun u hmem v hmem' => ?_⟩
  obtain ⟨rest, hrest⟩ := hu u hmem
  obtain ⟨t, rest', hrest', hst⟩ := hv v hmem'
  rw [hrest, hrest']
  exact .left _ _ hst

theorem Ordered.append_whole (h : Ordered vs) (hv : ∀ v ∈ vs, v.position ≠ []) {formal actual : Ty} :
    Ordered (vs ++ [⟨[], formal, actual⟩]) := by
  refine List.pairwise_append.2 ⟨h, List.pairwise_singleton _ _, fun v hmem u hu => ?_⟩
  obtain rfl := List.mem_singleton.1 hu
  cases hposition : v.position with
  | nil => exact absurd hposition (hv v hmem)
  | cons step rest => exact .inside step rest

theorem position_of_mem_under {v : Visit} (h : v ∈ vs.map (.under step)) : ∃ rest, v.position = step :: rest := by
  obtain ⟨u, -, rfl⟩ := mem_map_under_iff.1 h
  exact ⟨u.position, rfl⟩

theorem position_of_mem_visitsAll {v : Visit} (h : v ∈ visitsAll k formals actuals) :
    ∃ i rest, v.position = .element i :: rest ∧ k ≤ i := by
  obtain ⟨i, f, a, u, -, -, -, rfl⟩ := (mem_visitsAll_iff formals actuals).1 h
  exact ⟨k + i, u.position, rfl, Nat.le_add_right k i⟩

mutual

theorem ordered_visits : (formal actual : Ty) → Ordered (visits formal actual)
  | .unknown _, _ | .num, _ | .str _, _ => by
    rw [visits] <;> simp
  | .lst formals endless tuple, actual => by
    rw [visits]
    refine (ordered_visitsAll 0 formals actual.elements).append_whole fun v hv => ?_
    obtain ⟨i, rest, hposition, -⟩ := position_of_mem_visitsAll hv
    simp [hposition]
  | .arrow arg result, .arrow arg' result' => by
    rw [visits]
    refine Ordered.append_whole ?_ fun v hv => ?_
    · refine ((ordered_visits arg arg').map_under .arg).append_left
        ((ordered_visits result result').map_under .result) (fun u => position_of_mem_under) fun v hv => ?_
      obtain ⟨rest, hposition⟩ := position_of_mem_under hv
      exact ⟨.result, rest, hposition, trivial⟩
    · obtain hv | hv := List.mem_append.1 hv <;>
        obtain ⟨rest, hposition⟩ := position_of_mem_under hv <;> simp [hposition]
  | .arrow arg result, .unknown _ | .arrow arg result, .num | .arrow arg result, .str _
  | .arrow arg result, .lst .. => by
    rw [visits] <;> simp

theorem ordered_visitsAll (k : Nat) : (formals actuals : List Ty) → Ordered (visitsAll k formals actuals)
  | formal :: formals, actual :: actuals => by
    rw [visitsAll]
    refine ((ordered_visits formal actual).map_under (.element k)).append_left
      (ordered_visitsAll (k + 1) formals actuals) (fun u => position_of_mem_under) fun v hv => ?_
    obtain ⟨i, rest, hposition, hi⟩ := position_of_mem_visitsAll hv
    exact ⟨.element i, rest, hposition, hi⟩
  | [], actuals => by simp [visitsAll]
  | formal :: formals, [] => by simp [visitsAll]

end

def Match.visit (m : Match) (v : Visit) : Match :=
  match v.formal with
  | .unknown name => m.bind name v.actual
  | formal => m.track formal.isEndless v.actual

theorem foldl_visit_under (m : Match) (step : Step) (vs : List Visit) :
    (vs.map (.under step)).foldl Match.visit m = vs.foldl Match.visit m := by
  rw [List.foldl_map]
  rfl

mutual

theorem find_eq_foldl (m : Match) :
    (formal actual : Ty) → m.find actual formal = (visits formal actual).foldl Match.visit m
  | .unknown _, _ | .num, _ | .str _, _ => by
    simp only [visits, Match.find]
    rfl
  | .lst formals endless tuple, actual => by
    rw [visits, Match.find, List.foldl_append, findAll_eq_foldl m 0 formals actual.elements]
    rfl
  | .arrow arg result, .arrow arg' result' => by
    rw [visits, List.foldl_append, List.foldl_append, foldl_visit_under, foldl_visit_under,
      ← find_eq_foldl m arg arg', ← find_eq_foldl _ result result']
    simp [Match.find, Match.visit, Match.track, isEndless]
  | .arrow arg result, .unknown _ | .arrow arg result, .num | .arrow arg result, .str _
  | .arrow arg result, .lst .. => by
    rw [visits] <;> simp [Match.find, Match.visit, Match.track, isEndless]

theorem findAll_eq_foldl (m : Match) (k : Nat) :
    (formals actuals : List Ty) → m.findAll actuals formals = (visitsAll k formals actuals).foldl Match.visit m
  | formal :: formals, actual :: actuals => by
    rw [visitsAll, List.foldl_append, foldl_visit_under, ← find_eq_foldl m formal actual,
      ← findAll_eq_foldl _ (k + 1) formals actuals, Match.findAll]
  | [], actuals => by simp [visitsAll, Match.findAll]
  | formal :: formals, [] => by simp [visitsAll, Match.findAll]

end

theorem lookup_bind (m : Match) (name other : String) (actual : Ty) :
    (m.bind other actual).known.lookup name =
      (m.known.lookup name).or (if other = name then some actual else none) := by
  unfold Match.bind
  cases hother : m.known.lookup other with
  | some bound =>
    by_cases hname : other = name
    · subst hname
      simp [hother]
    · simp [hname]
  | none =>
    by_cases hname : other = name
    · subst hname
      simp [hother]
    · have hbeq : (name == other) = false := beq_eq_false_iff_ne.2 (Ne.symm hname)
      simp [List.lookup_cons, hbeq, hname]

theorem known_track (m : Match) (formalEndless : Bool) (actual : Ty) :
    (m.track formalEndless actual).known = m.known := by
  unfold Match.track
  split <;> rfl

theorem lookup_visit (m : Match) (v : Visit) (name : String) :
    (m.visit v).known.lookup name =
      (m.known.lookup name).or (if v.formal = .unknown name then some v.actual else none) := by
  unfold Match.visit
  split
  case h_1 other hformal =>
    rw [lookup_bind]
    simp [hformal]
  case h_2 hnot =>
    rw [known_track, if_neg (hnot name), Option.or_none]

theorem endless_visit (m : Match) (v : Visit) :
    (m.visit v).endless = if v.formal.isEndless then v.actual.isEndless else m.endless := by
  unfold Match.visit
  split
  case h_1 other hformal =>
    have hendless : (m.bind other v.actual).endless = m.endless := by
      unfold Match.bind
      split <;> rfl
    simp [hformal, isEndless, hendless]
  case h_2 => rw [Match.track, apply_ite Match.endless]

theorem lookup_foldl_visit (m : Match) (name : String) (vs : List Visit) :
    (vs.foldl Match.visit m).known.lookup name =
      (m.known.lookup name).or ((vs.find? (·.formal = .unknown name)).map Visit.actual) := by
  induction vs generalizing m with
  | nil => exact (Option.or_none).symm
  | cons v vs ih =>
    rw [List.foldl_cons, ih, lookup_visit, Option.or_assoc, List.find?_cons]
    by_cases hv : v.formal = .unknown name <;> simp [hv]

theorem endless_foldl_visit (m : Match) (vs : List Visit) :
    (vs.foldl Match.visit m).endless = ((vs.reverse.find? (·.formal.isEndless)).map (·.actual.isEndless)).getD m.endless := by
  induction vs generalizing m with
  | nil => rfl
  | cons v vs ih =>
    rw [List.foldl_cons, ih, endless_visit, List.reverse_cons, List.find?_append]
    cases vs.reverse.find? (·.formal.isEndless) with
    | some u => rfl
    | none => by_cases hv : v.formal.isEndless <;> simp [hv]

/-- What is found in a list ordered by positions is at the first position, in that order, of what may be found. -/
theorem find?_common (lt : List Step → List Step → Prop) (P : Ty → Bool)
    (hmem : ∀ v, v ∈ vs ↔ Common formal actual v) (hvs : vs.Pairwise fun u v => lt u.position v.position) :
    (∃ p f a, vs.find? (P ·.formal) = some ⟨p, f, a⟩ ∧ P f ∧ Common formal actual ⟨p, f, a⟩ ∧
      ∀ q g, formal.at? q = some g → P g → (actual.at? q).isSome → q = p ∨ lt p q) ∨
    (vs.find? (P ·.formal) = none ∧ ∀ p f, formal.at? p = some f → P f → actual.at? p = none) := by
  cases hfind : vs.find? (P ·.formal) with
  | none =>
    refine .inr ⟨rfl, fun p f hp hf => ?_⟩
    cases hpart : actual.at? p with
    | none => rfl
    | some part => exact absurd hf (List.find?_eq_none.1 hfind ⟨p, f, part⟩ ((hmem _).2 ⟨hp, hpart⟩))
  | some v =>
    obtain ⟨hv, before, after, rfl, hbefore⟩ := List.find?_eq_some_iff_append.1 hfind
    refine .inl ⟨v.position, v.formal, v.actual, rfl, hv, (hmem v).1 (by simp), fun q g hq hg hsome => ?_⟩
    obtain ⟨part, hpart⟩ := Option.isSome_iff_exists.1 hsome
    obtain hu | hu | hu : _ ∨ _ ∨ _ := by simpa using (hmem ⟨q, g, part⟩).2 ⟨hq, hpart⟩
    · exact absurd hg (by simpa using hbefore _ hu)
    · exact .inl (congrArg Visit.position hu)
    · exact .inr ((List.pairwise_cons.1 (List.pairwise_append.1 hvs).2.1).1 _ hu)

theorem firstMet_find (formal actual : Ty) (name : String) :
    FirstMet formal actual name ((Match.find {} actual formal).get name) := by
  rw [find_eq_foldl, Match.get, lookup_foldl_visit]
  obtain ⟨p, f, a, hfind, hf, ⟨hp, ha⟩, hfirst⟩ | ⟨hfind, hnone⟩ :=
    find?_common Before (decide <| · = .unknown name) (fun _ => mem_visits_iff formal actual)
      (ordered_visits formal actual)
  · obtain rfl := of_decide_eq_true hf
    rw [hfind]
    exact .inl ⟨p, hp, ha, fun q hq => hfirst q _ hq (decide_eq_true rfl)⟩
  · rw [hfind]
    exact .inr ⟨fun p hp => hnone p _ hp (decide_eq_true rfl), rfl⟩

theorem lastMark_find (formal actual : Ty) : LastMark formal actual (Match.find {} actual formal).endless := by
  rw [find_eq_foldl, endless_foldl_visit]
  obtain ⟨p, f, a, hfind, hf, ⟨hp, ha⟩, hlast⟩ | ⟨hfind, hnone⟩ :=
    find?_common (fun p q => Before q p) isEndless (fun _ => List.mem_reverse.trans (mem_visits_iff formal actual))
      (List.pairwise_reverse.2 (ordered_visits formal actual))
  · rw [hfind]
    exact .inl ⟨p, f, a, hp, hf, ha, rfl, hlast⟩
  · rw [hfind]
    exact .inr ⟨hnone, rfl⟩

mutual

theorem build_eq (m : Match) : (ty : Ty) → m.build ty = (ty.marked m.endless).substituted m.get
  | .unknown _ | .num | .str _ => by simp [Match.build, marked, substituted]
  | .lst elements _ _ => by simp [Match.build, marked, substituted, buildAll_eq m elements]
  | .arrow arg result => by simp [Match.build, marked, substituted, build_eq m arg, build_eq m result]

theorem buildAll_eq (m : Match) :
    (tys : List Ty) → m.buildAll tys = substitutedAll m.get (markedAll m.endless tys)
  | [] => by simp [Match.buildAll, markedAll, substitutedAll]
  | ty :: rest => by simp [Match.buildAll, markedAll, substitutedAll, build_eq m ty, buildAll_eq m rest]

end

mutual

theorem marked_substituted (h : ∀ name, SameShape (σ name) (τ name)) (endless : Bool) :
    (ty : Ty) → SameShape ((ty.marked endless).substituted σ) (ty.substituted τ)
  | .unknown name => h name
  | .num => rfl
  | .str _ => by simp [SameShape, marked, substituted]
  | .lst elements _ _ => by simp [SameShape, marked, substituted, markedAll_substitutedAll h endless elements]
  | .arrow arg result => by
    have harg := marked_substituted h endless arg
    have hresult := marked_substituted h endless result
    simp_all [SameShape, marked, substituted]

theorem markedAll_substitutedAll (h : ∀ name, SameShape (σ name) (τ name)) (endless : Bool) :
    (tys : List Ty) →
      markedAll false (substitutedAll σ (markedAll endless tys)) = markedAll false (substitutedAll τ tys)
  | [] => rfl
  | ty :: rest => by
    have hty := marked_substituted h endless ty
    have hrest := markedAll_substitutedAll h endless rest
    simp_all [SameShape, markedAll, substitutedAll]

end

theorem markedAll_eq_map (endless : Bool) (tys : List Ty) : markedAll endless tys = tys.map (marked endless) := by
  induction tys with
  | nil => rfl
  | cons ty rest ih => rw [markedAll, ih, List.map_cons]

theorem substitutedAll_eq_map (σ : String → Ty) (tys : List Ty) : substitutedAll σ tys = tys.map (substituted σ) := by
  induction tys with
  | nil => rfl
  | cons ty rest ih => rw [substitutedAll, ih, List.map_cons]

theorem part?_marked (ty : Ty) (endless : Bool) (step : Step) :
    (ty.marked endless).part? step = (ty.part? step).map (marked endless) := by
  cases ty <;> cases step <;> simp [marked, part?, markedAll_eq_map]

theorem at?_map {f : Ty → Ty} (hpart : ∀ ty step, (f ty).part? step = (ty.part? step).map f) (ty : Ty)
    (p : List Step) : (f ty).at? p = (ty.at? p).map f := by
  induction p generalizing ty with
  | nil => rfl
  | cons step rest ih =>
    simp only [at?, hpart]
    cases ty.part? step with
    | none => rfl
    | some part => exact ih part

theorem at?_marked (ty : Ty) (endless : Bool) (p : List Step) :
    (ty.marked endless).at? p = (ty.at? p).map (marked endless) :=
  at?_map (fun ty => part?_marked ty endless) ty p

theorem part?_substituted (σ : String → Ty) (h : ty.part? step = some part) :
    (ty.substituted σ).part? step = some (part.substituted σ) := by
  cases ty <;> cases step <;> simp_all [substituted, part?, substitutedAll_eq_map]

theorem at?_substituted (σ : String → Ty) (h : ty.at? p = some part) :
    (ty.substituted σ).at? p = some (part.substituted σ) := by
  induction p generalizing ty with
  | nil =>
    cases h
    rfl
  | cons step rest ih =>
    simp only [at?] at h
    split at h
    case h_1 whole hwhole =>
      simp only [at?, part?_substituted σ hwhole]
      exact ih h
    case h_2 => cases h

def Mentions (ty : Ty) (name : String) : Prop :=
  ∃ p, ty.at? p = some (.unknown name)

/-- What is met at the position of an unknown in an instance of a type has the shape of what the
unknown stands for. -/
theorem FirstMet.sameShape {formal actual : Ty} {τ' : String → Ty} (h : FirstMet formal actual name met)
    (hactual : SameShape actual (formal.substituted τ)) (hin : formal.Mentions name → τ' name = τ name)
    (hout : ¬ formal.Mentions name → τ' name = .unknown name) : SameShape met (τ' name) := by
  have hparts (p : List Step) (hp : formal.at? p = some (.unknown name)) :
      (actual.at? p).map (marked false) = some ((τ name).marked false) := by
    rw [← at?_marked, hactual, at?_marked, at?_substituted τ hp]
    rfl
  obtain ⟨p, hp, hmet, -⟩ | ⟨hnone, rfl⟩ := h
  · rw [hin ⟨p, hp⟩]
    have hpart := hparts p hp
    rw [hmet] at hpart
    exact Option.some.inj hpart
  · rw [hout]
    · exact rfl
    · rintro ⟨p, hp⟩
      have hpart := hparts p hp
      rw [hnone p hp] at hpart
      cases hpart

/-- The type of a function applied to an argument is the result type with its marks set to the last
mark met and its unknowns replaced by what each of them met first. Where the argument is an instance of
the parameter but for the marks, the type is the same instance of the result type but for the marks. -/
theorem applied_arrow (formal result actual : Ty) :
    ∃ σ mark, (∀ name met, FirstMet formal actual name met ↔ met = σ name) ∧
      (∀ mark', LastMark formal actual mark' ↔ mark' = mark) ∧
      (arrow formal result).applied actual = .ok ((result.marked mark).substituted σ) ∧
      ∀ τ τ', SameShape actual (formal.substituted τ) →
        (∀ name, (formal.Mentions name → τ' name = τ name) ∧
          (¬ formal.Mentions name → τ' name = .unknown name)) →
        SameShape ((result.marked mark).substituted σ) (result.substituted τ') := by
  have hfirst := firstMet_find formal actual
  have hlast := lastMark_find formal actual
  refine ⟨(Match.find {} actual formal).get, (Match.find {} actual formal).endless, ?_, ?_, ?_, ?_⟩
  · exact fun name met => ⟨fun hmet => hmet.unique (hfirst name), fun hmet => hmet ▸ hfirst name⟩
  · exact fun mark' => ⟨fun hmark => hmark.unique hlast, fun hmark => hmark ▸ hlast⟩
  · simp only [applied, applied?, build_eq]
  · intro τ τ' hactual hτ
    exact marked_substituted (fun name => (hfirst name).sameShape hactual (hτ name).1 (hτ name).2) _ result

/-- Mapping a function from endless texts to numbers over a list. -/
theorem applied_arrow_map :
    ∃ result, (arrow (arrow (unknown "a") (unknown "b"))
        (arrow (listOf [unknown "a"] true) (listOf [unknown "b"] true))).applied (arrow (str true) num) = .ok result ∧
      SameShape result (arrow (listOf [str false] false) (listOf [num] false)) := by
  let τ : String → Ty := fun name => if name = "a" then str false else if name = "b" then num else unknown name
  obtain ⟨σ, mark, -, -, happlied, hshape⟩ := applied_arrow (arrow (unknown "a") (unknown "b"))
    (arrow (listOf [unknown "a"] true) (listOf [unknown "b"] true)) (arrow (str true) num)
  refine ⟨_, happlied, (hshape τ τ rfl fun name => ⟨fun _ => rfl, fun hnot => ?_⟩).trans rfl⟩
  have ha : name ≠ "a" := fun h => hnot ⟨[.arg], by rw [h]; rfl⟩
  have hb : name ≠ "b" := fun h => hnot ⟨[.result], by rw [h]; rfl⟩
  simp [τ, ha, hb]

end PullScript.Ty
