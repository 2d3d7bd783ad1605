import PullScript.Proofs.Copies.Kept

namespace PullScript

open Act

variable {α σ τ : Type} {feed : Feed} {clean : Bool}

def Value.Upheld (feed : Feed) (act : Act Value α) : Prop :=
  ∀ origin, Upholds (Value.Kept feed origin) act

/-- What is left of the arguments of a builtin, those that are `fixed` having been left alone. -/
structure Bound.Kept (feed : Feed) (fixed : Nat → Bool) (origin : Bound) (clean : Bool) (b : Bound) : Prop where
  name_eq : b.name = origin.name
  ty_eq : b.ty = origin.ty
  length_eq : b.args.length = origin.args.length
  args : ∀ (i : Nat) (a a' : Value), origin.args[i]? = some a → b.args[i]? = some a' → Value.Kept feed a clean a'
  alone : ∀ k, fixed k = true → b.args[k]? = origin.args[k]?

namespace Bound

variable {fixed : Nat → Bool} {origin b : Bound} {k : Nat}

instance : Weakens (Kept feed fixed origin) :=
  ⟨fun h => ⟨h.name_eq, h.ty_eq, h.length_eq, fun i a a' ha ha' => (h.args i a a' ha ha').weaken, h.alone⟩⟩

theorem Kept.set {a value : Value} (h : Kept feed fixed origin clean b) (hk : fixed k = false)
    (ha : origin.args[k]? = some a) (hvalue : Value.Kept feed a clean value) :
    Kept feed fixed origin clean { b with args := b.args.set k value } where
  name_eq := h.name_eq
  ty_eq := h.ty_eq
  length_eq := by rw [List.length_set, h.length_eq]
  args i x x' hx hx' := by
    by_cases hik : k = i
    · subst hik
      obtain rfl := Option.some.inj (ha.symm.trans hx)
      rw [List.getElem?_set_self'] at hx'
      obtain ⟨_, -, rfl⟩ := Option.map_eq_some_iff.1 hx'
      exact hvalue
    · rw [List.getElem?_set_ne hik] at hx'
      exact h.args i x x' hx hx'
  alone i hi := by
    have hik : k ≠ i := by
      rintro rfl
      rw [hk] at hi
      cases hi
    rw [List.getElem?_set_ne hik, h.alone i hi]

theorem Kept.exists_origin {value : Value} (h : Kept feed fixed origin clean b) (hvalue : b.args[k]? = some value) :
    ∃ a, origin.args[k]? = some a ∧ Value.Kept feed a clean value := by
  obtain ⟨hk, -⟩ := List.getElem?_eq_some_iff.1 hvalue
  rw [h.length_eq] at hk
  exact ⟨_, List.getElem?_eq_getElem hk, h.args k _ value (List.getElem?_eq_getElem hk) hvalue⟩

theorem arg_still (k : Nat) : Still (arg k) :=
  fun _ => arg_ends.imp (fun _ _ h => h.1) fun _ h => h

/-- A condition on arguments under which argument `k` may be pulled, as long as it is kept. -/
def Yielding (feed : Feed) (I : Bool → Bound → Prop) (k : Nat) : Prop :=
  ∀ ⦃clean b value⦄, I clean b → b.args[k]? = some value → ∃ a, Value.Kept feed a clean value ∧
    ∀ ⦃clean v⦄, I clean b → Value.Kept feed a clean v → I clean { b with args := b.args.set k v }

theorem Yielding.free (hk : fixed k = false) : Yielding feed (Kept feed fixed origin) k := by
  intro clean b value hb hvalue
  obtain ⟨a, ha, hkept⟩ := hb.exists_origin hvalue
  exact ⟨a, hkept, fun _ _ hb hv => hb.set hk ha hv⟩

namespace Yielding

variable {I : Bool → Bound → Prop} [Weakens I] (hI : Yielding feed I k)

include hI

theorem on {act : Act Value α} (hact : Value.Upheld feed act) : Upholds I (on k act) := by
  intro clean b hb
  refine on_ends (Weakens.weaken hb) fun value hvalue => ?_
  obtain ⟨a, hkept, hset⟩ := hI hb hvalue
  exact (hact a hkept).imp (fun _ _ hv => hset hb hv) fun _ hv => hset (Weakens.weaken hb) hv

theorem within {ρ : Type} [Holder τ] [Inhabited ρ] {t : Bound × τ} {x : ρ} {value : Value}
    {rebuild : ρ × Value → Bound × τ} {act : Act (ρ × Value) α} (hb : I clean b) (hvalue : b.args[k]? = some value)
    (hrebuild : ∀ y, (rebuild y).1 = { b with args := b.args.set k y.2 })
    (hact : ∀ a, Upholds (Second (Value.Kept feed a)) act) :
    Retains (First I) clean t (within (x, value) rebuild act) := by
  obtain ⟨a, hkept, hset⟩ := hI hb hvalue
  refine Ends.within ((hact a (show Second _ clean (x, value) from hkept)).imp (fun _ y hy => ?_) fun y hy => ?_)
  · rw [First, hrebuild]
    exact hset hb hy
  · rw [First, hrebuild]
    exact hset (Weakens.weaken hb) hy

end Yielding

end Bound

/-- Values that are asked through `p` are kept, and a number that is made is what there is to see. -/
structure Retentive (feed : Feed) (p : Puller) : Prop where
  number : Value.Upheld feed p.number
  text : ∀ ask, ask ≠ .takeNumber → Value.Upheld feed (p.pull (.text ask))
  list : ∀ ask, Value.Upheld feed (p.pull (.list ask))
  apply : ∀ x, Value.Upheld feed (p.apply x)
  made : ∀ {source : Value}, source.Sealed →
    Settles source p.number (fun x _ => (View.ask source .number).Gives feed x) fun _ =>
      ∀ x, ¬ (View.ask source .number).Gives feed x

theorem requireKind_upheld (kind : Kind) : Value.Upheld feed (requireKind kind) := by
  refine fun origin => .look fun value => ?_
  split
  · exact .pure
  · exact .fail

variable {p : Puller} (h : Retentive feed p)

namespace Retentive

include h

theorem stream : Value.Upheld feed p.stream :=
  h.text .stream (by decide)

theorem textEnded : Value.Upheld feed p.textEnded :=
  h.text .ended (by decide)

theorem drain : Value.Upheld feed p.drain :=
  h.text .drain (by decide)

theorem current : Value.Upheld feed p.current :=
  h.list .current

theorem advance : Value.Upheld feed p.advance :=
  h.list .advance

theorem listEnded : Value.Upheld feed p.listEnded :=
  h.list .ended

theorem rewind : Value.Upheld feed p.rewind :=
  h.list .rewind

theorem count : Value.Upheld feed p.count :=
  h.list .count

theorem next : Value.Upheld feed p.next := by
  refine fun origin => .bind (h.listEnded origin) fun e => ?_
  cases e with
  | true => exact .pure
  | false => exact .bind (h.current origin) fun item => .bind (.holding (h.advance origin) _) fun _ => .pure

theorem readAll : Value.Upheld feed (readAll p) :=
  fun origin => .gathered (h.drain origin)

theorem readWhile (more : Bytes → Bool) : Value.Upheld feed (readWhile p more) := by
  refine fun origin => .bind (requireKind_upheld .str origin) fun _ => .loop (fun buffer => ?_) _ _
  split
  · exact .pure
  · refine .bind (h.textEnded origin) fun e => ?_
    cases e with
    | true => exact .pure
    | false => exact .bind (.gathered (h.stream origin)) fun _ => .pure

theorem searchFor (needle : Bytes) : Value.Upheld feed (searchFor p needle) := by
  refine fun origin => .bind (requireKind_upheld .str origin) fun _ => .loop (fun window => ?_) _ _
  refine .bind (h.textEnded origin) fun e => ?_
  cases e with
  | true => exact .pure
  | false =>
    refine .bind (.gathered (h.stream origin)) fun bytes => ?_
    dsimp only
    split <;> exact .pure

theorem skipItems (n : Nat) : Value.Upheld feed (skipItems p n) := by
  refine fun origin => .bind (requireKind_upheld .lst origin) fun _ => .loop (fun left => ?_) _ _
  split
  · exact .pure
  · refine .bind (h.listEnded origin) fun e => ?_
    cases e with
    | true => exact .pure
    | false => exact .bind (h.advance origin) fun _ => .pure

theorem drainItems : Value.Upheld feed (drainItems p) := by
  refine fun origin => .bind (requireKind_upheld .lst origin) fun _ => .loop (fun items => ?_) _ _
  refine .bind (.holding (h.next origin) _) fun item => ?_
  cases item with
  | none => exact .pure
  | some item => exact .pure

/-- Making a number that is to be noted. If it has been left alone so far, it is what there is to see. -/
theorem noting {form : Float → α} {source source' : Value} (hsource : source.Sealed)
    (hkept : Value.Kept feed source clean source') (hnoted : Noted feed form (some source) clean (some source') none) :
    Settles source' p.number
      (fun x v => Value.Kept feed source clean v ∧ Noted feed form (some source) clean (some v) (some (form x)))
      fun v => Value.Kept feed source false v ∧ Noted feed form (some source) false (some v) none := by
  obtain ⟨rfl, hnothing⟩ | heq := hnoted
  · exact (h.number source hkept).imp (fun _ _ hv => ⟨hv, .inl ⟨rfl, hnothing⟩⟩) fun _ hv => ⟨hv, .inl ⟨rfl, hnothing⟩⟩
  · cases heq
    refine ((h.number source hkept).and (h.made hsource)).imp (fun x v hv => ?_) fun v hv => ?_
    · exact ⟨hv.1, .inr ⟨source, x, rfl, hv.2, rfl⟩⟩
    · exact ⟨hv.1, .inl ⟨rfl, source, rfl, hv.2⟩⟩

end Retentive

end PullScript
