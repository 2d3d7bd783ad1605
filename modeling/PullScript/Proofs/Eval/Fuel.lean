import PullScript.Eval.Pull
import PullScript.Proofs.Eval.Act

namespace PullScript

open Act

variable {σ τ α β : Type}
variable {fuel : Nat} {act' : Nat → Act σ α} {t ta tb : τ × World} {next : Nat → α → Act σ β} {stop : Stop}

/-- With enough fuel `act` gives `result` from `s`; with less it does so too or runs out. -/
structure Comes (act : Nat → Act σ α) (s : σ × World) (result : Act.Result σ α) : Prop where
  enough : ∃ least, ∀ fuel, least ≤ fuel → act fuel s = result
  agrees : ∀ fuel, act fuel s = result ∨ ∃ s', act fuel s = .error .outOfFuel s'

def afterRound (body : Nat → β → Act σ (β ⊕ α)) (passed fuel : Nat) : β ⊕ α → Act σ α
  | .inl b => loop (body fuel) (fuel - passed) b
  | .inr a => return a

theorem loop_eq (body : Nat → β → Act σ (β ⊕ α)) (b : β) {passed : Nat} (h : passed < fuel) :
    loop (body fuel) (fuel - passed) b = body fuel b >>= afterRound body (passed + 1) fuel := by
  obtain ⟨left, rfl⟩ := Nat.exists_eq_add_of_lt h
  rw [show passed + left + 1 - passed = left + 1 by omega, loop]
  congr 1
  funext out
  cases out with
  | inl b => rw [afterRound, show passed + left + 1 - (passed + 1) = left by omega]
  | inr a => rfl

namespace Comes

variable {act : Nat → Act σ α} {s s' : σ × World} {result : Act.Result σ α}

theorem of_eq (h : ∀ fuel, act fuel s = result) : Comes act s result :=
  ⟨⟨0, fun fuel _ => h fuel⟩, fun fuel => .inl (h fuel)⟩

theorem congr (h : Comes act s result) (heq : ∀ fuel, act' fuel s = act fuel s) : Comes act' s result where
  enough := by simpa only [heq] using h.enough
  agrees := by simpa only [heq] using h.agrees

theorem eq_of_ended (h : Comes act s result) (hended : ∀ s', act fuel s ≠ .error .outOfFuel s') :
    act fuel s = result := by
  obtain heq | ⟨s', hout⟩ := h.agrees fuel
  · exact heq
  · exact absurd hout (hended s')

/-- Work that is done by other work from another state, in a way that lets running out of fuel
through. -/
theorem through {act' : Nat → Act τ β} (h : Comes act s result) {after : Act.Result σ α → Act.Result τ β}
    (hafter : ∀ s', ∃ t', after (.error .outOfFuel s') = .error .outOfFuel t')
    (heq : ∀ fuel, act' fuel t = after (act fuel s)) : Comes act' t (after result) := by
  obtain ⟨least, hleast⟩ := h.enough
  refine ⟨⟨least, fun fuel hfuel => ?_⟩, fun fuel => ?_⟩
  · rw [heq, hleast fuel hfuel]
  · rw [heq]
    obtain hsame | ⟨s', hout⟩ := h.agrees fuel
    · exact .inl (congrArg after hsame)
    · rw [hout]
      exact .inr (hafter s')

theorem on {act' : Nat → Act τ α} {rebuild : σ → τ} {restore : World → World} (h : Comes act s result)
    (heq : ∀ fuel, act' fuel t = Act.Result.on rebuild restore (act fuel s)) :
    Comes act' t (Act.Result.on rebuild restore result) :=
  h.through (fun _ => ⟨_, rfl⟩) heq

theorem bind {a : α} {result : Act.Result σ β} (h : Comes act s (.ok a s'))
    (hnext : Comes (fun fuel => next fuel a) s' result) : Comes (fun fuel => act fuel >>= next fuel) s result := by
  obtain ⟨least, hleast⟩ := h.enough
  obtain ⟨least', hleast'⟩ := hnext.enough
  refine ⟨⟨max least least', fun fuel hfuel => ?_⟩, fun fuel => ?_⟩
  · rw [bind_of_ok (hleast fuel (by omega)), hleast' fuel (by omega)]
  · obtain hok | ⟨s₁, hout⟩ := h.agrees fuel
    · simp only [bind_of_ok hok]
      exact hnext.agrees fuel
    · exact .inr ⟨s₁, bind_of_error hout _⟩

theorem bind_error (h : Comes act s (.error stop s')) :
    Comes (fun fuel => act fuel >>= next fuel) s (.error stop s') := by
  obtain ⟨least, hleast⟩ := h.enough
  refine ⟨⟨least, fun fuel hfuel => bind_of_error (hleast fuel hfuel) _⟩, fun fuel => ?_⟩
  obtain herror | ⟨s₁, hout⟩ := h.agrees fuel
  · exact .inl (bind_of_error herror _)
  · exact .inr ⟨s₁, bind_of_error hout _⟩

section Loops

variable {body : Nat → β → Act σ (β ⊕ α)} {b b' : β} {passed : Nat}

theorem loop_round (h : Comes (fun fuel => body fuel b >>= afterRound body (passed + 1) fuel) s result) :
    Comes (fun fuel => loop (body fuel) (fuel - passed) b) s result := by
  obtain ⟨least, hleast⟩ := h.enough
  refine ⟨⟨max least (passed + 1), fun fuel hfuel => ?_⟩, fun fuel => ?_⟩
  · rw [loop_eq body b (by omega)]
    exact hleast fuel (by omega)
  · by_cases hfuel : passed < fuel
    · rw [loop_eq body b hfuel]
      exact h.agrees fuel
    · rw [show fuel - passed = 0 by omega]
      exact .inr ⟨s, rfl⟩

theorem loop_again (h : Comes (body · b) s (.ok (.inl b') s'))
    (hrest : Comes (fun fuel => loop (body fuel) (fuel - (passed + 1)) b') s' result) :
    Comes (fun fuel => loop (body fuel) (fuel - passed) b) s result :=
  loop_round (h.bind hrest)

theorem loop_error (h : Comes (body · b) s (.error stop s')) :
    Comes (fun fuel => loop (body fuel) (fuel - passed) b) s (.error stop s') :=
  loop_round h.bind_error

theorem loop_done {a : α} (h : Comes (body · b) s (.ok (.inr a) s')) :
    Comes (fun fuel => loop (body fuel) (fuel - passed) b) s (.ok a s') :=
  loop_round (h.bind (of_eq fun _ => rfl))

end Loops

theorem later (h : Comes act s result) (hzero : ∃ s', act' 0 s = .error .outOfFuel s')
    (hsucc : ∀ fuel, act' (fuel + 1) s = act fuel s) : Comes act' s result := by
  obtain ⟨least, hleast⟩ := h.enough
  refine ⟨⟨least + 1, fun fuel hfuel => ?_⟩, fun fuel => ?_⟩
  · obtain _ | fuel := fuel
    · omega
    rw [hsucc, hleast fuel (by omega)]
  · cases fuel with
    | zero => exact .inr hzero
    | succ fuel =>
      rw [hsucc]
      exact h.agrees fuel

theorem pull {ask : Ask} {s : Value × World} {result : Act.Result Value ask.Reply}
    (h : Comes (fun fuel => answer (puller fuel) ask) s result) :
    Comes (fun fuel => PullScript.pull fuel ask) s result :=
  h.later ⟨s, rfl⟩ fun _ => rfl

end Comes

variable {P : Act.Result σ α → Act.Result σ α → Prop} {a : Act σ α} {b : Nat → Act σ α} {sa sb : σ × World}

/-- Unless `a` runs out of fuel, its result and what `b` comes to are in a relation. -/
def Both (P : Act.Result σ α → Act.Result σ α → Prop) (a : Act σ α) (sa : σ × World)
    (b : Nat → Act σ α) (sb : σ × World) : Prop :=
  (∃ s, a sa = .error .outOfFuel s) ∨ ∃ result, Comes b sb result ∧ P (a sa) result

theorem Both.through {P' : Act.Result τ β → Act.Result τ β → Prop} {a' : Act τ β} {b' : Nat → Act τ β}
    {afterA afterB : Act.Result σ α → Act.Result τ β} (h : Both P a sa b sb)
    (houtA : ∀ s, ∃ t, afterA (.error .outOfFuel s) = .error .outOfFuel t)
    (houtB : ∀ s, ∃ t, afterB (.error .outOfFuel s) = .error .outOfFuel t) (ha : a' ta = afterA (a sa))
    (hb : ∀ fuel, b' fuel tb = afterB (b fuel sb)) (hP : ∀ ra rb, P ra rb → P' (afterA ra) (afterB rb)) :
    Both P' a' ta b' tb := by
  unfold Both
  rw [ha]
  obtain ⟨s, hout⟩ | ⟨result, hcomes, hresult⟩ := h
  · rw [hout]
    exact .inl (houtA s)
  · exact .inr ⟨_, hcomes.through houtB hb, hP _ _ hresult⟩

theorem Both.on {P' : Act.Result τ α → Act.Result τ α → Prop} {a' : Act τ α} {b' : Nat → Act τ α}
    {rebuildA rebuildB : σ → τ} {restoreA restoreB : World → World} (h : Both P a sa b sb)
    (ha : a' ta = Act.Result.on rebuildA restoreA (a sa))
    (hb : ∀ fuel, b' fuel tb = Act.Result.on rebuildB restoreB (b fuel sb))
    (hP : ∀ ra rb, P ra rb → P' (Act.Result.on rebuildA restoreA ra) (Act.Result.on rebuildB restoreB rb)) :
    Both P' a' ta b' tb :=
  h.through (fun _ => ⟨_, rfl⟩) (fun _ => ⟨_, rfl⟩) ha hb hP

theorem Both.congr {a' : Act σ α} {b' : Nat → Act σ α} (h : Both P a sa b sb) (ha : a' sa = a sa)
    (hb : ∀ fuel, b' fuel sb = b fuel sb) : Both P a' sa b' sb := by
  unfold Both
  rw [ha]
  exact h.imp_right fun ⟨result, hcomes, hresult⟩ => ⟨result, hcomes.congr hb, hresult⟩

end PullScript
