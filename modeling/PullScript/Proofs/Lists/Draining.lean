import PullScript.Proofs.Lists.Items
import PullScript.Proofs.View.Walking

namespace PullScript

namespace Asked

def rounds (items : List Value) : List Asked :=
  items.flatMap fun item => [.ended false, .current item, .advance]

def SeenFrom (feed : Feed) (list : Value) : Nat → List Asked → Prop
  | _, [] => True
  | k, asked :: asks => asked.Seen feed list k ∧ SeenFrom feed list (k + asked.steps) asks

variable {feed : Feed} {list : Value} {k : Nat} {items : List Value} {asks : List Asked}

theorem seenFrom_rounds_iff : SeenFrom feed list k (rounds items ++ asks) ↔
    (∀ (i : Nat) (item : Value), items[i]? = some item → (ListView.of list).HasItem feed (k + i) item) ∧
      SeenFrom feed list (k + items.length) asks := by
  induction items generalizing k with
  | nil => simp [rounds]
  | cons first items ih =>
    have hround : SeenFrom feed list k (rounds (first :: items) ++ asks) ↔
        (ListView.of list).HasItem feed k first ∧ SeenFrom feed list (k + 1) (rounds items ++ asks) :=
      ⟨fun ⟨he, hx, hstep, hrest⟩ => ⟨⟨he, hx, hstep⟩, hrest⟩, fun ⟨⟨he, hx, hstep⟩, hrest⟩ => ⟨he, hx, hstep, hrest⟩⟩
    rw [hround, ih, ← and_assoc, List.length_cons, show k + 1 + items.length = k + (items.length + 1) by omega]
    refine and_congr_left fun _ => ⟨fun ⟨hfirst, hothers⟩ i item hitem => ?_, fun h => ⟨h 0 first rfl, fun i item hitem => ?_⟩⟩
    · cases i with
      | zero =>
        obtain rfl := Option.some.inj hitem
        exact hfirst
      | succ i =>
        rw [show k + (i + 1) = k + 1 + i by omega]
        exact hothers i item hitem
    · rw [show k + 1 + i = k + (i + 1) by omega]
      exact h (i + 1) item hitem

theorem SeenFrom.drained_unique {items' : List Value} (h : SeenFrom feed list k (rounds items ++ [.ended true]))
    (h' : SeenFrom feed list k (rounds items' ++ [.ended true])) : items = items' := by
  induction items generalizing k items' with
  | nil =>
    cases items' with
    | nil => rfl
    | cons first rest => cases View.Gives.unique h.1 h'.1
  | cons first rest ih =>
    cases items' with
    | nil => cases View.Gives.unique h.1 h'.1
    | cons first' rest' =>
      obtain ⟨-, hfirst, -, hrest⟩ := h
      obtain ⟨-, hfirst', -, hrest'⟩ := h'
      obtain rfl := View.Gives.unique hfirst hfirst'
      rw [ih hrest hrest']

end Asked

theorem Value.On.walked_iff {feed : Feed} {list : Value} {k : Nat} {s : Value × World} {asks : List Asked}
    (hon : list.On feed k s) (hlist : list.Unpulled) : (∃ t, Walked s asks t) ↔ Asked.SeenFrom feed list k asks := by
  induction asks generalizing k s with
  | nil => exact ⟨fun _ => trivial, fun _ => ⟨s, .nil s⟩⟩
  | cons asked asks ih =>
    constructor
    · rintro ⟨t, hwalked⟩
      cases hwalked with
      | cons hgets hrest =>
        obtain ⟨hseen, hon'⟩ := hgets.seen hlist hon
        exact ⟨hseen, (ih hon').1 ⟨t, hrest⟩⟩
    · rintro ⟨hseen, hrest⟩
      obtain ⟨s', hgets⟩ := hseen.gets hlist hon
      obtain ⟨t, hwalked⟩ := (ih (hgets.seen hlist hon).2).2 hrest
      exact ⟨t, .cons hgets hwalked⟩

namespace Value

def Feeds (list : Value) (w : World) (items : List Value) : Prop :=
  ∃ t, Walked (list, w) (Asked.rounds items) t

/-- A list gives some items one after the other, and then says that there are no more. -/
def Drains (list : Value) (w : World) (items : List Value) : Prop :=
  ∃ t, Walked (list, w) (Asked.rounds items ++ [.ended true]) t

/-- The items that a list gives one after the other until it says that there are no more, if it says so after fewer
items than `rounds`. -/
def drained? (n : Nat) : (rounds : Nat) → Value × World → Option (List Value)
  | 0, _ => none
  | rounds + 1, s =>
    match (puller n).listEnded s with
    | .ok true _ => some []
    | .ok false s =>
      match (puller n).current s with
      | .ok item s =>
        match (puller n).advance s with
        | .ok () s => (drained? n rounds s).map (item :: ·)
        | .error _ _ => none
      | .error _ _ => none
    | .error _ _ => none

theorem drains_of_drained? (n rounds : Nat) (s : Value × World) {items : List Value}
    (h : drained? n rounds s = some items) : s.1.Drains s.2 items := by
  induction rounds generalizing s items with
  | zero => cases h
  | succ rounds ih =>
    rw [drained?] at h
    cases hended : (puller n).listEnded s with
    | error => simp [hended] at h
    | ok e s₁ =>
      cases e with
      | true =>
        obtain rfl : [] = items := by simpa [hended] using h
        exact ⟨s₁, .cons (.ended hended) (.nil s₁)⟩
      | false =>
        cases hcurrent : (puller n).current s₁ with
        | error => simp [hended, hcurrent] at h
        | ok item s₂ =>
          cases hadvance : (puller n).advance s₂ with
          | error => simp [hended, hcurrent, hadvance] at h
          | ok _ s₃ =>
            obtain ⟨rest, hrest, rfl⟩ : ∃ rest, drained? n rounds s₃ = some rest ∧ item :: rest = items := by
              simpa [hended, hcurrent, hadvance] using h
            obtain ⟨t, hwalked⟩ := ih s₃ hrest
            exact ⟨t, .cons (.ended hended) (.cons (.current hcurrent) (.cons (.advance hadvance) hwalked))⟩

theorem On.drains_unique {feed : Feed} {list : Value} {k : Nat} {s : Value × World} (hon : list.On feed k s)
    (hlist : list.Unpulled) {items items' : List Value} (h : s.1.Drains s.2 items) (h' : s.1.Drains s.2 items') :
    items = items' :=
  ((hon.walked_iff hlist).1 h).drained_unique ((hon.walked_iff hlist).1 h')

namespace Unpulled

variable {list : Value} {items : List Value}

theorem feeds_iff (h : list.Unpulled) (w : World) :
    list.Feeds w items ↔ (ListView.of list).Shows w.feed items := by
  rw [Feeds, (h.on w).walked_iff h, ← List.append_nil (Asked.rounds items), Asked.seenFrom_rounds_iff]
  simp only [Nat.zero_add, ListView.Shows, Asked.SeenFrom, and_true]

theorem drains_iff (h : list.Unpulled) (w : World) :
    list.Drains w items ↔ (ListView.of list).Holds w.feed items := by
  rw [Drains, (h.on w).walked_iff h, Asked.seenFrom_rounds_iff]
  simp only [Nat.zero_add, Asked.SeenFrom, and_true]
  exact ⟨fun ⟨hshows, hends⟩ => ⟨hshows, hends⟩, fun ⟨hshows, hends⟩ => ⟨hshows, hends⟩⟩

end Unpulled

theorem drains_list {elements : List Ty} {items : List Value} (h : UnpulledAll items) (w : World) :
    (list elements items 0).Drains w (items.map copy) := by
  have hlist : (list elements items 0).Unpulled := ⟨h, rfl⟩
  exact (hlist.drains_iff w).2 ((ListView.alike_ofValue rfl).symm.holds (ListView.holds_ofItems items))

end Value

end PullScript
