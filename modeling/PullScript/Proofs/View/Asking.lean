import PullScript.Proofs.View.Place

namespace PullScript

open Act

variable {σ α β γ : Type} {feed : Feed} {n : Nat} {seen : Reach}
variable {value : Value} {chunk : Option Bytes} {first : View α} {text : α → TextView} {x : α} {j : Nat}

/-- A list that is walked through as it is seen, `P` saying which states are at a place and `O` which
are over. -/
structure ListView.Walks (feed : Feed) (n : Nat) (l : ListView) (P : Reach → Nat → σ → Prop)
    (O : Reach → σ → Prop) (ended : Nat → Act σ Bool) (current : Nat → Act σ Value)
    (advance : Nat → Act σ Unit) : Prop where
  endedOver : ∀ {seen k s}, P seen k s →
    Tells feed n seen s ended (l.ended k) fun seen' e s' => P seen' k s' ∧ (e = true → O seen' s')
  current : ∀ {seen k s}, P seen k s →
    Tells feed n seen s current (l.item k) fun seen' _ s' => P seen' k s'
  advance : ∀ {seen k s}, P seen k s →
    Tells feed n seen s advance (l.step k) fun seen' _ s' => P seen' (k + 1) s'

theorem ListView.Walks.ended {l : ListView} {P : Reach → Nat → σ → Prop} {O : Reach → σ → Prop}
    {ended : Nat → Act σ Bool} {current : Nat → Act σ Value} {advance : Nat → Act σ Unit}
    (h : l.Walks feed n P O ended current advance) {k : Nat} {s : σ} (hs : P seen k s) :
    Tells feed n seen s ended (l.ended k) fun seen' _ s' => P seen' k s' :=
  (h.endedOver hs).imp fun _ _ _ _ _ hs' => hs'.1

section Walks

variable {l : ListView} {P : Reach → Nat → σ → Prop} {O : Reach → σ → Prop} {ended : Nat → Act σ Bool}
  {current : Nat → Act σ Value} {advance : Nat → Act σ Unit} {k : Nat} {s : σ}

section

variable (h : l.Walks feed n P O ended current advance)
include h

/-- Stepping over an item, if there is one, leads to the next place. Where there is none, the list is
over. -/
theorem ListView.Walks.nextOver (hs : P seen k s) :
    Tells feed n seen s
      (fun f => do
        if ← ended f then return none
        let item ← current f
        holding [item] (advance f)
        return some item)
      (l.next k) fun seen' item s' =>
        P seen' (if item.isSome then k + 1 else k) s' ∧ (item = none → O seen' s') := by
  refine (h.endedOver hs).bind fun seen₁ e s₁ _ _ ⟨hs₁, hover⟩ => ?_
  cases e with
  | true => exact Tells.pure ⟨hs₁, fun _ => hover rfl⟩
  | false =>
    refine (h.current hs₁).bind fun seen₂ item s₂ _ _ hs₂ => ?_
    exact (h.advance hs₂).holding.bind fun seen₃ _ s₃ _ _ hs₃ => Tells.pure ⟨hs₃, nofun⟩

theorem ListView.Walks.next (hs : P seen k s) :
    Tells feed n seen s
      (fun f => do
        if ← ended f then return none
        let item ← current f
        holding [item] (advance f)
        return some item)
      (l.next k) fun seen' item s' => P seen' (if item.isSome then k + 1 else k) s' :=
  (h.nextOver hs).imp fun _ _ _ _ _ hs' => hs'.1

theorem ListView.Walks.imp {O' : Reach → σ → Prop}
    (hO : ∀ seen s, O seen s → O' seen s) : l.Walks feed n P O' ended current advance where
  endedOver hs := (h.endedOver hs).imp fun _ _ _ _ _ ⟨hs', hover⟩ => ⟨hs', fun he => hO _ _ (hover he)⟩
  current := h.current
  advance := h.advance

theorem ListView.Walks.congr {ended' : Nat → Act σ Bool} {current' : Nat → Act σ Value} {advance' : Nat → Act σ Unit}
    (hended : ∀ f s, ended' f s = ended f s)
    (hcurrent : ∀ f s, current' f s = current f s) (hadvance : ∀ f s, advance' f s = advance f s) :
    l.Walks feed n P O ended' current' advance' where
  endedOver hs := (h.endedOver hs).congr fun f _ => hended f _
  current hs := (h.current hs).congr fun f _ => hcurrent f _
  advance hs := (h.advance hs).congr fun f _ => hadvance f _

end

end Walks

def orFail (error : Error) : Option α → Act σ α
  | some a => return a
  | none => fail error

def takeOrFail (error : Error) (fuel : Nat) : Act Value Value.Numeric := do
  orFail error (← (puller fuel).takeNumber)

theorem within_orFail {τ : Type} [Holder σ] [Inhabited τ] (part : τ) (rebuild : τ → σ) (act : Act τ (Option α))
    (error : Error) : within part rebuild (act >>= orFail error) = within part rebuild act >>= orFail error := by
  funext ⟨s, w⟩
  rw [bind_run, within_run, within_run, bind_run]
  cases act (part, { w with around := held (rebuild default) :: w.around }) with
  | error stop s' => rfl
  | ok a s' => cases a <;> rfl

structure Pulls (feed : Feed) (n : Nat) : Prop where
  number : ∀ {seen : Reach} {value value' : Value}, value.Unpulled → value.At feed seen 0 value' →
    Tells feed n seen value' (fun k => (puller k).number) (.ask value .number) fun seen' _ v =>
      value.At feed seen' 0 v
  text : ∀ {value : Value}, value.Unpulled →
    (TextView.of value).Streams feed n (fun seen i v => value.At feed seen i v) (fun seen v => v.Over feed seen)
      (fun k => (puller k).textEnded) fun k => (puller k).stream
  drain : ∀ {seen : Reach} {value value' : Value}, value.Unpulled → value.At feed seen 0 value' →
    Tracks feed n seen value' (fun k => (puller k).drain) (.ask value .whole)
      fun seen' all _ v bytes => bytes = all ∧ ∃ i, value.At feed seen' i v
  taken : ∀ {seen : Reach} {value : Value} (error : Error), value.Unpulled → value.kind = .str →
    Tells feed n seen value (takeOrFail error) (.blaming error (.ask value .taken)) fun _ _ _ => True
  list : ∀ {value : Value}, value.Unpulled →
    (ListView.of value).Walks feed n (fun seen k v => value.At feed seen k v) (fun seen v => v.Over feed seen)
      (fun k => (puller k).listEnded) (fun k => (puller k).current) fun k => (puller k).advance
  apply : ∀ {seen : Reach} {f f' x : Value}, f.Unpulled → x.Unpulled → f.At feed seen 0 f' →
    Tells feed n seen f' (fun k => (puller k).apply x) (.ask f (.applied x)) fun seen' _ v =>
      f.At feed seen' 0 v

theorem requireKind_tells {value' : Value} {k : Nat} (h : value.At feed seen k value') (kind : Kind) :
    Tells feed n seen value' (fun _ => requireKind kind) (View.expectKind value kind) fun _ _ v => v = value' := by
  unfold View.expectKind View.require
  by_cases hkind : value.kind = kind
  · rw [if_pos hkind]
    refine Tells.congr (Tells.pure rfl) fun _ w => ?_
    simp [requireKind, bind_run, h.kind_eq, hkind]
  · rw [if_neg hkind]
    refine Tells.congr (Tells.fail (.typeMismatch value.ty kind.anyTy)) fun _ w => ?_
    simp [requireKind, bind_run, h.kind_eq, h.ty_eq, hkind]

theorem takeBack_tells [Holder σ] (h : Pulls feed n) {s : σ} (hvalue : value.Unpulled) (hkind : value.kind = .str)
    (error : Error) :
    Tells feed n seen s
      (fun k => do
        match ← aside value (puller k).takeNumber with
        | (some number, _) => return number.value
        | (none, _) => fail error)
      (do return (← (View.ask value .taken).blaming error).value) fun _ _ s' => s' = s := by
  have htaken : Tells feed n seen value (takeOrFail error) (.blaming error (.ask value .taken)) fun _ _ _ => True :=
    h.taken error hvalue hkind
  have hvalue : Tracks feed n seen s
      (fun k => do
        let x ← aside value (takeOrFail error k)
        return x.1.value)
      (do return (← (View.ask value .taken).blaming error).value)
      fun _ b a s' bytes => a = b ∧ bytes = [] ∧ s' = s := by
    refine (Tracks.aside htaken).bind ?_
    rintro seen' number ⟨_, _⟩ _ bytes - - ⟨rfl, rfl, rfl, -⟩
    exact Tells.pure rfl
  refine Tracks.congr hvalue fun k w => ?_
  simp only [bind_run, aside_run, holding_run, takeOrFail]
  cases (puller k).takeNumber (value, { w with around := held s :: w.around }) with
  | error stop s' => rfl
  | ok number s' => cases number <;> rfl

theorem coerce_tells [Holder σ] (h : Pulls feed n) {s : σ} (hvalue : value.Unpulled) (target : Ty) :
    Tells feed n seen s (fun k => coerce (puller k) value target) (.coerced value target) fun _ _ s' => s' = s := by
  cases hkind : value.kind <;> cases target <;> simp only [coerce, View.coerced, hkind]
  case str.num => exact takeBack_tells h hvalue hkind _
  all_goals first | exact Tells.pure rfl | exact Tells.fail _

namespace TextView

variable {t : TextView} {P : Reach → Nat → σ → Prop} {O : Reach → σ → Prop} {ended : Nat → Act σ Bool}
  {stream : Nat → Act σ Unit}

variable {i : Nat} {s : σ} {bytes : Bytes}

theorem next_eq (t : TextView) (i : Nat) : t.next i = t.ended i >>= fun e => if e then pure none else t.next i := by
  refine View.ext fun viewer => ?_
  simp only [next, View.run_bind]
  rcases he : (t.ended i).run viewer with _ | _ | _ | _ <;> simp [View.run_bind, he]

theorem bindEnded {Q : Reach → Bool → σ → Prop} (h : Tells feed n seen s ended (t.ended i) Q)
    {next : Nat → Bool → Act σ γ} {N : Reach → Option Bytes → γ → σ → Bytes → Prop}
    (hend : ∀ seen' s', Further seen seen' → Q seen' true s' → (t.ended i).Gives feed true → Tracks feed n seen' s'
      (fun k => next k true) (pure none) N)
    (hmore : ∀ seen' s', Further seen seen' → Q seen' false s' → (t.ended i).Gives feed false → Tracks feed n seen' s'
      (fun k => next k false) (t.next i) N) :
    Tracks feed n seen s (fun k => ended k >>= next k) (t.next i) N := by
  rw [next_eq]
  refine h.bind fun seen' e s' hfurther he hs' => ?_
  cases e with
  | true => exact hend seen' s' hfurther hs' he
  | false => exact hmore seen' s' hfurther hs' he

theorem Streamed.of_more {u : Unit} (h : t.Streamed feed P i seen chunk u s bytes)
    (hnext : (t.next i).Gives feed chunk) (hmore : (t.ended i).Gives feed false) :
    ∃ c j, chunk = some c ∧ i < j ∧ t.Runs feed i j bytes ∧ P seen j s := by
  cases chunk with
  | none => cases hmore.unique (next_gives_none_iff.1 hnext)
  | some c =>
    obtain ⟨j, hij, hruns, hs⟩ := h
    exact ⟨c, j, rfl, hij, hruns, hs⟩

theorem Streams.drain (h : t.Streams feed n P O ended stream) (hs : P seen i s) {soFar : Bytes}
    (hfront : t.Runs feed 0 i soFar) :
    Tracks feed n seen s (fun k => drainBySteps k (ended k) (stream k)) t.whole
      fun seen' all _ s' bytes => all = soFar ++ bytes ∧ ∃ j, P seen' j s' := by
  refine Tracks.imp (loop_tracks (fun _ => false) id (R := fun seen i _ _ s => P seen i s)
    (F := fun seen i _ _ s => P seen i s) ?_ rfl (fun _ _ => rfl) (fun _ _ h => h) hs hfront) ?_
  · intro seen i soFar _ s hs
    refine bindEnded (h.ended hs) (fun seen' s' _ hs' _ => .pure ⟨rfl, hs'⟩) fun seen' s' _ hs' hmore => ?_
    refine (h.stream hs').andThen ?_
    intro seen'' chunk u s'' bytes _ hchunk hstreamed
    obtain ⟨c, j, rfl, hij, hruns, hs''⟩ := hstreamed.of_more hchunk hmore
    exact .pure ⟨j, bytes, hij, hruns, List.append_nil _, hs''⟩
  · rintro seen' all u s' bytes - - ⟨j, rest, hrest, rfl, hreached, hs'⟩
    obtain ⟨h, -⟩ | ⟨-, rfl, -⟩ := hreached
    · cases h
    · exact ⟨rfl, j, hs'⟩

theorem after_next (first : View α) (text : α → TextView) (i : Nat) :
    (TextView.after first text).next i = first >>= fun x => (text x).next i := by
  refine View.ext fun viewer => ?_
  simp only [next, after, View.run_bind]
  rcases hx : first.run viewer with _ | _ | x
  · rfl
  · rfl
  · simp only [Option.bind_some, View.andThen]
    rcases ((text x).ended i).run viewer with _ | _ | _ | _ <;> simp [View.run_bind, hx]

theorem Runs.after (hfirst : first.Gives feed x) (h : (text x).Runs feed i j bytes) :
    (TextView.after first text).Runs feed i j bytes := by
  induction h with
  | refl i => exact .refl i
  | step hnext _ ih =>
    refine .step ?_ ih
    rw [after_next]
    exact hfirst.bind hnext

theorem Passed.after (hfirst : first.Gives feed x) (h : (text x).Passed feed i chunk j bytes) :
    (TextView.after first text).Passed feed i chunk j bytes := by
  cases chunk with
  | none => exact h
  | some chunk => exact ⟨h.1, h.2.after hfirst⟩

end TextView

end PullScript
