import PullScript.Proofs.Eval.Fuel
import PullScript.Proofs.World.Sink

namespace PullScript

open Act

variable {σ τ α β : Type}
variable {next : Nat → α → Act σ β}

def World.wrote (w : World) (bytes : Bytes) : World :=
  { w with out := { w.out with written := w.out.written ++ bytes } }

@[simp]
theorem World.wrote_nil (w : World) : w.wrote [] = w := by
  simp [wrote]

theorem World.wrote_append (w : World) (bytes more : Bytes) : w.wrote (bytes ++ more) = (w.wrote bytes).wrote more := by
  have h : w.out.written ++ (bytes ++ more) = w.out.written ++ bytes ++ more := Array.ext' (by simp)
  simp only [wrote, h]

theorem World.bytes_wrote (w : World) (bytes : Bytes) : (w.wrote bytes).out.bytes = w.out.bytes ++ bytes := by
  simp [wrote, Sink.bytes]

/-- With enough fuel `act` streams `bytes`, gives `a` and makes `s'` of `s`. Only work that streams nothing can do
with a sink that has a limit. -/
def Yields (act : Nat → Act σ α) (s : σ) (bytes : Bytes) (a : α) (s' : σ) : Prop :=
  ∀ w : World, w.out.limit = none ∨ bytes = [] → Comes act (s, w) (.ok a (s', w.wrote bytes))

namespace Yields

variable {act : Nat → Act σ α} {s s' s'' : σ} {a : α} {b : β} {bytes more : Bytes}

theorem comes (h : Yields act s [] a s') (w : World) : Comes act (s, w) (.ok a (s', w)) := by
  simpa only [World.wrote_nil] using h w (.inr rfl)

theorem of_comes (h : ∀ w, Comes act (s, w) (.ok a (s', w))) : Yields act s [] a s' := by
  intro w _
  rw [World.wrote_nil]
  exact h w

theorem congr {act' : Nat → Act σ α} (h : Yields act s bytes a s')
    (heq : ∀ fuel w, act' fuel (s, w) = act fuel (s, w)) : Yields act' s bytes a s' :=
  fun w hw => (h w hw).congr fun fuel => heq fuel w

theorem pure (a : α) (s : σ) : Yields (fun _ => (Pure.pure a : Act σ α)) s [] a s :=
  of_comes fun _ => .of_eq fun _ => rfl

theorem write (bytes : Bytes) (s : σ) : Yields (fun _ => (Act.write bytes : Act σ Unit)) s bytes () s := by
  intro w hw
  refine .of_eq fun _ => ?_
  obtain hlimit | rfl := hw
  · simp only [Act.write, Sink.write_of_limit_none hlimit, World.wrote]
  · simp only [Act.write, Sink.write_nil, World.wrote_nil]

theorem bind (h : Yields act s bytes a s') (hnext : Yields (fun fuel => next fuel a) s' more b s'') :
    Yields (fun fuel => act fuel >>= next fuel) s (bytes ++ more) b s'' := by
  intro w hw
  rw [List.append_eq_nil_iff] at hw
  rw [World.wrote_append]
  exact (h w (hw.imp_right And.left)).bind (hnext _ (hw.imp_right And.right))

theorem andThen (h : Yields act s [] a s') (hnext : Yields (fun fuel => next fuel a) s' bytes b s'') :
    Yields (fun fuel => act fuel >>= next fuel) s bytes b s'' :=
  h.bind hnext

theorem andQuietly (h : Yields act s bytes a s') (hnext : Yields (fun fuel => next fuel a) s' [] b s'') :
    Yields (fun fuel => act fuel >>= next fuel) s bytes b s'' := by
  simpa only [List.append_nil] using h.bind hnext

theorem look {next : Nat → σ → Act σ β} (h : Yields (fun fuel => next fuel s) s bytes b s') :
    Yields (fun fuel => Act.look >>= next fuel) s bytes b s' :=
  h.congr fun _ _ => rfl

theorem change (f : σ → σ) (s : σ) : Yields (fun _ => Act.change f) s [] () (f s) :=
  of_comes fun _ => .of_eq fun _ => rfl

theorem put (s s' : σ) : Yields (fun _ => Act.put s') s [] () s' :=
  of_comes fun _ => .of_eq fun _ => rfl

section Parts

variable {part part' : τ} {work : Nat → Act τ α}

theorem zoom (rebuild : τ → σ) (h : Yields work part bytes a part') :
    Yields (fun fuel => Act.zoom part rebuild (work fuel)) s bytes a (rebuild part') := by
  intro w hw
  exact (h w hw).on fun fuel => zoom_run part rebuild (work fuel) s w

theorem holding (values : List Value) (h : Yields act s bytes a s') :
    Yields (fun fuel => Act.holding values (act fuel)) s bytes a s' := by
  intro w hw
  exact (h { w with around := values :: w.around } hw).on fun fuel => holding_run values (act fuel) s w

theorem within [Holder σ] [Inhabited τ] (rebuild : τ → σ) (h : Yields work part bytes a part') :
    Yields (fun fuel => Act.within part rebuild (work fuel)) s bytes a (rebuild part') :=
  (h.holding _).zoom rebuild

theorem onFirst [Holder σ] [Holder τ] [Inhabited σ] (h : Yields act s bytes a s') (t : τ) :
    Yields (fun fuel => Act.onFirst (act fuel)) (s, t) bytes a (s', t) :=
  look (h.within fun s => (s, t))

theorem onSecond [Holder σ] [Holder τ] [Inhabited τ] (h : Yields work part bytes a part') (s : σ) :
    Yields (fun fuel => Act.onSecond (work fuel)) (s, part) bytes a (s, part') :=
  look (h.within fun t => (s, t))

theorem aside [Holder σ] (h : Yields work part bytes a part') (s : σ) :
    Yields (fun fuel => Act.aside part (work fuel)) s bytes (a, part') s := by
  intro w hw
  have hrun (fuel : Nat) := aside_run part (work fuel) s w
  exact (h.holding (held s) w hw).through (fun _ => ⟨_, rfl⟩) hrun

end Parts

theorem gather (h : Yields act s bytes a s') (buffer : Bytes) :
    Yields (fun fuel => Act.gather (act fuel)) (buffer, s) [] a (buffer ++ bytes, s') := by
  refine of_comes fun w => ?_
  have hrun (fuel : Nat) := gather_run (act fuel) buffer s w
  have hcomes := (h { w with out := {} } (.inl rfl)).through (fun _ => ⟨_, rfl⟩) hrun
  rw [Result.gather, World.bytes_wrote] at hcomes
  exact hcomes

theorem gathered {act : Nat → Act σ Unit} (h : Yields act s bytes () s') :
    Yields (fun fuel => Act.gathered (act fuel)) s [] bytes s' := by
  refine of_comes fun w => ?_
  have hrun (fuel : Nat) := gathered_run (act fuel) s w
  have hcomes := (h { w with out := {} } (.inl rfl)).through (fun _ => ⟨_, rfl⟩) hrun
  rw [Result.gathered, World.bytes_wrote] at hcomes
  exact hcomes

section Loops

variable {body : Nat → β → Act σ (β ⊕ α)} {b b' : β} {passed : Nat}

theorem again (h : Yields (body · b) s bytes (.inl b') s')
    (hrest : Yields (fun fuel => loop (body fuel) (fuel - (passed + 1)) b') s' more a s'') :
    Yields (fun fuel => loop (body fuel) (fuel - passed) b) s (bytes ++ more) a s'' := by
  intro w hw
  rw [List.append_eq_nil_iff] at hw
  rw [World.wrote_append]
  exact (h w (hw.imp_right And.left)).loop_again (hrest _ (hw.imp_right And.right))

theorem againQuietly (h : Yields (body · b) s [] (.inl b') s')
    (hrest : Yields (fun fuel => loop (body fuel) (fuel - (passed + 1)) b') s' bytes a s'') :
    Yields (fun fuel => loop (body fuel) (fuel - passed) b) s bytes a s'' :=
  h.again hrest

theorem done (h : Yields (body · b) s bytes (.inr a) s') :
    Yields (fun fuel => loop (body fuel) (fuel - passed) b) s bytes a s' :=
  fun w hw => (h w hw).loop_done

end Loops

theorem pull {ask : Ask} {v v' : Value} {reply : ask.Reply} (hkind : v.kind = ask.kind)
    (h : Yields (fun fuel => answerFitting (puller fuel) ask) v bytes reply v') :
    Yields (fun fuel => (puller fuel).pull ask) v bytes reply v' := by
  intro w hw
  refine Comes.pull ((h w hw).congr fun fuel => ?_)
  simp only [answer, requireFor, bind_run, look_run, hkind, if_true, pure_run]

end Yields

namespace Bound

variable {b : Bound} {k : Nat} {v v' : Value} {bytes : Bytes} {a : α} {act : Nat → Act Value α}

theorem yields_arg (h : b.args[k]? = some v) : Yields (fun _ => arg k) b [] v b := by
  refine .look ?_
  simp only [h]
  exact .pure v b

theorem yields_on (h : b.args[k]? = some v) (hact : Yields act v bytes a v') :
    Yields (fun fuel => on k (act fuel)) b bytes a { b with args := b.args.set k v' } :=
  (yields_arg h).andThen (.look (hact.within fun value => { b with args := b.args.set k value }))

end Bound

end PullScript
