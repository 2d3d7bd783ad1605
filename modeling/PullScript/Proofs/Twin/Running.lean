import PullScript.Proofs.Running
import PullScript.Proofs.Twin.Pulling

namespace PullScript

open Act

theorem Agrees.captured_eq {σ : Type} [Twinned σ] {v v' : World} {ra rb : Act.Result σ Unit}
    (h : Agrees ⟨true, true⟩ v v' ra rb) : Act.Result.captured ra = Act.Result.captured rb := by
  cases h with
  | ok _ _ hw => simp only [Act.Result.captured, hw.twin.out rfl]
  | failed error _ hw => simp only [Act.Result.captured, hw.twin.out rfl]

namespace Application

/-- Applications that may be the same, with twins as their values, and names that use the same taps. -/
instance : Twinned Application :=
  ⟨fun ports app app' => app.options = app'.options ∧ Value.OptionTwin ports app.root app'.root ∧
    Value.usesAll (held app.scope) = Value.usesAll (held app'.scope)⟩

instance : TwinHolder Application where
  uses_eq {_ app app'} h := by
    have happ (app : Application) : Value.usesAll (held app) =
        Value.usesAll (held app.root) ++ Value.usesAll (held app.scope) := Value.usesAll_append ..
    rw [happ app, happ app', h.2.1.held_twin.uses_eq, h.2.2]

theorem theRoot_agree {m : Mode} : Agree m theRoot fun _ => theRoot := by
  refine .look fun app app' happ => ?_
  obtain ⟨-, hroot, -⟩ := id happ
  generalize app.root = root, app'.root = root' at hroot
  cases hroot with
  | none => exact .fail _ happ
  | some hroot => exact .pure hroot happ

theorem applyRoot_agree (n tap : Nat) {app app' : Application} (happ : twin true app app')
    {root root' : Value} (hroot : Value.Twin true root root') (wanted : Ty) : Agree ⟨true, true⟩
      (coerce (puller n) (.input tap 0 true) wanted >>= fun arg =>
        within root (fun root => { app with root := some root }) ((puller n).apply arg))
      fun k => coerce (puller k) (.input tap 0 true) wanted >>= fun arg =>
        within root' (fun root => { app' with root := some root }) ((puller k).apply arg) := by
  have h := asks_puller true n
  refine .bind (coerce_agree h (.input tap 0 true rfl) wanted) fun arg arg' harg _ _ _ => ?_
  exact .within (h.apply harg hroot) fun _ _ hroot' => ⟨happ.1, .some hroot', happ.2.2⟩

theorem result_agree (n tap : Nat) : Agree ⟨true, true⟩ (result (puller n) tap) fun k => result (puller k) tap := by
  refine .bind theRoot_agree fun root root' hroot => .look ?_
  rintro ⟨scope, options, held⟩ ⟨scope', _, held'⟩ happ
  obtain rfl : options = _ := happ.1
  have happly := applyRoot_agree n tap happ hroot
  simp only [← hroot.kind_eq, ← hroot.ty_eq]
  split
  · split
    · refine .bind (Agree.ofOption (fun _ _ => rfl) happ) ?_
      rintro same _ app app' rfl happ'
      cases same with
      | true => exact happly _ happ'
      | false => exact .bind (.fail _ happ') fun _ _ _ _ _ happ' => happly _ happ'
    · exact happly _ happ
  · split
    · exact .pure hroot.copy happ
    · exact .fail _ happ

theorem runFrom_agree (n tap : Nat) :
    Agree ⟨true, true⟩ (runFrom (puller n) tap) fun k => runFrom (puller k) tap := by
  have h := asks_puller true n
  refine .bind (result_agree n tap) fun value value' hvalue => ?_
  refine .bind (coerce_agree h hvalue _) fun text text' htext => ?_
  exact .bind ((h.drain rfl).aside htext) fun _ _ _ => .pure rfl

theorem writes_of_twin {app app' : Application} (h : twin true app app') {fuel : Nat} {reads : List Read}
    {sink : Sink} {w : World} {bytes : Bytes} {stop : Option Stop}
    (hwrites : Writes fuel reads sink (app, w) bytes stop) (hended : stop ≠ some .outOfFuel) :
    ∃ least, ∀ fuel, least ≤ fuel → Writes fuel reads sink (app', w) bytes stop := by
  simp only [writes_iff] at hwrites ⊢
  generalize { w with out := sink, taps := w.taps.push { reads } } = v at hwrites ⊢
  obtain ⟨s, hout⟩ | ⟨result, hcomes, hresult⟩ := runFrom_agree fuel w.taps.size h v v (.refl _ v)
  · rw [hout] at hwrites
    exact absurd (congrArg Prod.snd hwrites).symm hended
  · have hsame : Act.Result.captured result = (bytes, stop) := hresult.captured_eq.symm.trans hwrites
    obtain ⟨least, hleast⟩ := hcomes.enough
    exact ⟨least, fun fuel hfuel => (congrArg _ (hleast fuel hfuel)).trans hsame⟩

end Application

end PullScript
