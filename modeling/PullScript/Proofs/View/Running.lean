import PullScript.Proofs.Twin.Scripts
import PullScript.Proofs.View.Halting

namespace PullScript

open Act

variable {σ : Type} {feed : Feed} {seen seen' : Reach} {s : σ} {n : Nat} {w w' : World}

/-- Work on `s` that streams what a view gives, and stops halfway at the fronts in `L`, whatever the fuel. -/
structure Pours (feed : Feed) (s : σ) (act : Nat → Act σ Unit) (m : View Bytes) (L : Nat → Bytes → Prop) :
    Prop where
  tracks : ∀ n seen, Tracks feed n seen s act m fun _ all _ _ bytes => bytes = all
  spills : ∀ n seen, Spills feed n seen s act L
  appends : ∀ n, Appends (act n)

namespace Pours

variable {act : Nat → Act σ Unit} {m : View Bytes} {L : Nat → Bytes → Prop} (h : Pours feed s act m L)
  (hw : w.Stocked feed seen) (hw' : w'.Stocked feed seen') (hout : w'.out.bytes = w.out.bytes)
include h hw hw' hout

theorem asFar (n : Nat) : ∃ least, ∀ f, least ≤ f →
    (Result.world (act n (s, w))).out.bytes <+: (Result.world (act f (s, w'))).out.bytes := by
  cases hact : act n (s, w) with
  | ok u s₁ =>
    obtain ⟨_, all, _, ⟨k, hall⟩, hmoves, rfl⟩ := (h.tracks n seen).sound hw hact
    obtain ⟨_, _, _, w₂, _, hcomes, hmoves', rfl⟩ := (h.tracks k seen').complete hw' hall
    obtain ⟨least, hleast⟩ := hcomes.enough
    refine ⟨least, fun f hf => ?_⟩
    rw [hleast f hf]
    change s₁.2.out.bytes <+: w₂.out.bytes
    rw [hmoves.out, hmoves'.out, hout]
  | error stop s₁ =>
    obtain ⟨p, hp, rfl | ⟨k, hk⟩⟩ := (h.spills n seen).sound hw hact
    · refine ⟨0, fun f _ => ?_⟩
      change s₁.2.out.bytes <+: _
      rw [hp, List.append_nil, ← hout]
      exact (h.appends f s w' hw'.room).2
    · change ∃ least, ∀ f, least ≤ f → s₁.2.out.bytes <+: _
      rw [hp, ← hout]
      exact (h.spills k seen').complete hw' hk

theorem captured_eq (hended : ∀ s', act n (s, w) ≠ .error .outOfFuel s') : ∃ least, ∀ f, least ≤ f →
    Result.captured (act f (s, w')) = Result.captured (act n (s, w)) := by
  obtain ⟨s', hstop⟩ | ⟨x, ⟨k, hx⟩, hfits⟩ := (h.tracks n seen).follows hw
  · exact absurd hstop (hended s')
  obtain ⟨r, hcomes, -⟩ := (h.tracks k seen).reaches hw hx
  obtain ⟨r', hcomes', hfits'⟩ := (h.tracks k seen').reaches hw' hx
  obtain ⟨far, hfar⟩ := h.asFar hw hw' hout n
  obtain ⟨least, hleast⟩ := hcomes.enough
  obtain ⟨least', hleast'⟩ := hcomes'.enough
  obtain ⟨back, hback⟩ := h.asFar hw' hw hout.symm (max far least')
  have hthere := hfar (max far least') (Nat.le_max_left ..)
  have hagain := hback (max back least) (Nat.le_max_left ..)
  rw [hleast _ (Nat.le_max_right ..), ← hcomes.eq_of_ended hended] at hagain
  rw [hleast' _ (Nat.le_max_right ..)] at hthere hagain
  have hbytes := hthere.eq_of_length_le hagain.length_le
  refine ⟨least', fun f hf => ?_⟩
  rw [hleast' f hf]
  generalize act n (s, w) = r₁ at hfits hbytes
  cases hfits with
  | ok => cases hfits' with
    | ok => exact Prod.ext hbytes.symm rfl
  | failed error s₁ => cases hfits' with
    | failed _ s₂ => exact Prod.ext hbytes.symm rfl

theorem captured_capped (limit : Nat) (hobeys : ∀ n, Obeys limit (act n))
    (hended : ∀ s', act n (s, w.capped limit) ≠ .error .outOfFuel s') : ∃ least, ∀ f, least ≤ f →
    Result.captured (act f (s, w'.capped limit)) = Result.captured (act n (s, w.capped limit)) := by
  have hroom : w'.room limit = w.room limit := by rw [World.room, World.room, hout]
  have hcaptured (f : Nat) := (hobeys f).captured (s := s) hw'.room
  rw [(hobeys n).captured hw.room]
  by_cases hwithin : (Result.captured (act n (s, w))).1.length ≤ w.room limit
  · obtain ⟨least, hleast⟩ := h.captured_eq hw hw' hout (n := n) fun s' hstop => by
      obtain ⟨-, hsame⟩ | ⟨hover, -⟩ := hobeys n s w hw.room
      · rw [hstop] at hsame
        exact hended _ hsame
      · rw [captured_fst] at hwithin
        omega
    refine ⟨least, fun f hf => ?_⟩
    rw [hcaptured, hroom, hleast f hf]
  · obtain ⟨least, hleast⟩ := h.asFar hw hw' hout n
    refine ⟨least, fun f hf => ?_⟩
    obtain ⟨more, hmore⟩ := hleast f hf
    rw [captured_fst] at hwithin
    rw [hcaptured, hroom, captured_fst, captured_fst, ← hmore, if_neg (by rw [List.length_append]; omega), if_neg hwithin,
      List.take_append_of_le_length (by omega)]

end Pours

namespace Application

variable {app : Application} {root : Value} {tap : Nat}

/-- What an application is seen to make of the input behind a tap, with `root` built. -/
def rootView (app : Application) (root : Value) (tap : Nat) : View Value :=
  let wanted := root.ty.arg?.getD (.unknown "a")
  let text := Ty.str true
  let applied : View Value := do .ask root (.applied (← .coerced (.input tap 0 true) wanted))
  if root.kind = .fn then
    if app.options.strict then do
      if !(← .ofOption (wanted.equals? text)) then .fail (.typeMismatch wanted text) else applied
    else applied
  else if app.options.notFun then pure root.copy
  else .fail (.typeMismatch root.ty .anyFunction)

def resultView (app : Application) (tap : Nat) : View Value :=
  match app.root with
  | some root => rootView app root tap
  | none => .fail (.runtime .nothingBuilt)

theorem applyRoot_tells (hroot : root.Unpulled) (tap : Nat) (wanted : Ty) :
    Tells feed n seen app
      (fun k => do
        let arg ← coerce (puller k) (.input tap 0 true) wanted
        within root (fun root => { app with root := some root }) ((puller k).apply arg))
      (do .ask root (.applied (← .coerced (.input tap 0 true) wanted)))
      fun _ value _ => value.Unpulled := by
  have hinput : (Value.input tap 0 true).Unpulled := rfl
  refine (coerce_tells (pulls feed n) hinput wanted).bind fun seen' arg app' _ harg happ => ?_
  have hunpulled := harg.coerced_unpulled hinput
  have happly : Tells feed n seen' root (fun k => (puller k).apply arg) (.ask root (.applied arg)) fun _ value _ =>
      value.Unpulled :=
    ((pulls feed n).apply hroot hunpulled hroot.at_start).imp fun _ _ _ _ hvalue _ =>
      hvalue.applied_unpulled hroot hunpulled
  exact happly.within.imp fun _ _ _ _ _ ⟨_, _, hvalue⟩ => hvalue

theorem result_tells (happ : ∀ root, app.root = some root → root.Unpulled) (tap : Nat) :
    Tells feed n seen app (fun k => result (puller k) tap) (resultView app tap) fun _ value _ => value.Unpulled := by
  cases hroot : app.root with
  | none =>
    have htheRoot (w : World) : theRoot (app, w) = .error (.failed (.runtime .nothingBuilt)) (app, w) := by
      simp [theRoot, bind_run, hroot]
    simp only [resultView, hroot]
    exact Tells.congr (Tells.fail _) fun k w => bind_of_error (htheRoot w) _
  | some root =>
    have htheRoot (w : World) : theRoot (app, w) = .ok root (app, w) := by
      simp [theRoot, bind_run, hroot]
    have hunpulled := happ root hroot
    simp only [resultView, hroot]
    refine Tells.congr (Tells.look ?_) fun k w => bind_of_ok (htheRoot w) _
    unfold rootView
    dsimp only
    split
    · split
      · refine Tells.bind (P := fun _ _ app' => app' = app) (Tells.ofOption fun _ _ => rfl) ?_
        rintro seen' same _ - - rfl
        cases same
        · exact Tells.fail _
        · exact applyRoot_tells hunpulled tap _
      · exact applyRoot_tells hunpulled tap _
    · split
      · exact Tells.pure hunpulled.copy
      · exact Tells.fail _

theorem runFrom_pours (feed : Feed) (happ : ∀ root, app.root = some root → root.Unpulled) (tap : Nat) :
    Pours feed app (fun k => runFrom (puller k) tap)
      (do .ask (← .coerced (← resultView app tap) (.str true)) .whole)
      fun k p => ∃ result, (resultView app tap).Gives feed result ∧
        ∃ text, (View.coerced result (.str true)).Gives feed text ∧ text.Emits feed k p where
  tracks n seen := by
    refine (result_tells happ tap).bind fun _ result _ _ _ hresult => ?_
    refine (coerce_tells (pulls feed n) hresult _).bind fun seen' text app' _ htext _ => ?_
    have hunpulled := htext.coerced_unpulled hresult
    have hdrain : Tracks feed n seen' text (fun k => (puller k).drain) (.ask text .whole) _ :=
      (pulls feed n).drain hunpulled hunpulled.at_start
    refine hdrain.aside.andThen ?_
    rintro seen'' all ⟨_, _⟩ _ bytes - - ⟨rfl, rfl, -⟩
    exact Tracks.pure (List.append_nil _)
  spills n seen := by
    refine .bind (fun k => result_tells happ tap) (fun k => (result_steps (steady_puller k) tap).quiet_run) ?_
    rintro seen' result _ app' _ - hgives ⟨rfl, -, hresult⟩
    refine .bind (fun k => coerce_tells (pulls feed k) hresult _)
      (fun k => (coerce_steps (steady_puller k) _ _).quiet_run) ?_
    rintro seen'' text _ _ _ - htext ⟨rfl, -, rfl⟩
    have hunpulled := htext.coerced_unpulled hresult
    exact ((halts feed n).drain hunpulled hunpulled.at_start).aside fun _ app => app
  appends n := (runFrom_steps (steady_puller n) tap).appends

theorem stock_ofChunks {chunks : List Bytes} (hchunks : ∀ chunk ∈ chunks, chunk ≠ []) :
    Stock.ofReads (chunks.map .chunk) = ⟨chunks.flatten, none⟩ := by
  induction chunks with
  | nil => rfl
  | cons chunk chunks ih =>
    cases chunk with
    | nil => exact absurd rfl (hchunks [] (List.mem_cons_self ..))
    | cons byte bytes =>
      rw [List.map_cons, Stock.ofReads, ih fun chunk hchunk => hchunks chunk (List.mem_cons_of_mem _ hchunk)]
      · rfl
      · simp

def opened (chunks : List Bytes) (out : Sink) (w : World) : World :=
  { w with out, taps := w.taps.push { reads := chunks.map .chunk } }

theorem stocked_opened {chunks : List Bytes} (hchunks : ∀ chunk ∈ chunks, chunk ≠ []) (out : Sink)
    (hroom : out.limit = none) (w : World) :
    (opened chunks out w).Stocked (fun tap => if tap = w.taps.size then ⟨chunks.flatten, none⟩ else w.feed tap)
      fun _ => 0 where
  stock tap := by
    have hnew : Tap.stock { reads := chunks.map .chunk } = ⟨chunks.flatten, none⟩ := by
      simp [Tap.stock, stock_ofChunks hchunks]
    simp only [opened, World.feed, World.tapAt, Array.getD_eq_getD_getElem?, Array.getElem?_push]
    split
    · exact hnew
    · rfl
  seen tap := Nat.zero_le _
  room := hroom

theorem writes_others (happ : ∀ root, app.root = some root → root.Unpulled) {chunks others : List Bytes}
    (hchunks : ∀ chunk ∈ chunks, chunk ≠ []) (hothers : ∀ chunk ∈ others, chunk ≠ [])
    (hbytes : chunks.flatten = others.flatten) {fuel : Nat} {sink : Sink} {bytes : Bytes} {stop : Option Stop}
    (hwrites : Writes fuel (chunks.map .chunk) sink (app, w) bytes stop) (hended : stop ≠ some .outOfFuel) :
    ∃ least, ∀ fuel, least ≤ fuel → Writes fuel (others.map .chunk) sink (app, w) bytes stop := by
  have hw := stocked_opened hchunks { sink with limit := none } rfl w
  have hw' := stocked_opened hothers { sink with limit := none } rfl w
  rw [← hbytes] at hw'
  simp only [writes_iff] at hwrites ⊢
  have hpours := runFrom_pours (fun tap => if tap = w.taps.size then ⟨chunks.flatten, none⟩ else w.feed tap) happ
    w.taps.size
  have hstop {s : Application × World} (hcaptured : Result.captured (runFrom (puller fuel) w.taps.size s) = (bytes, stop)) :
      ∀ s', runFrom (puller fuel) w.taps.size s ≠ .error .outOfFuel s' := fun s' hrun => by
    rw [hrun] at hcaptured
    exact hended (congrArg Prod.snd hcaptured).symm
  rw [← hwrites]
  obtain ⟨written, _ | limit⟩ := sink
  · exact hpours.captured_eq hw hw' rfl (hstop hwrites)
  · exact hpours.captured_capped hw hw' rfl limit (fun n => (runFrom_steps (steady_puller n) _).obeys limit)
      (hstop hwrites)

/-- Two readers that hand out the same bytes in chunks of their own, none of them empty, are all the
same to an application that scripts were built into: if its run on one of them ends, then so does its
run on the other, given enough fuel, and with any fuel it writes the same bytes and ends in the same
way unless it runs out. -/
theorem run_chunks {registry : Registry} {options : Options} {app : Application}
    (happ : Scripted registry options app) {chunks others : List Bytes}
    (hchunks : ∀ chunk ∈ chunks, chunk ≠ []) (hothers : ∀ chunk ∈ others, chunk ≠ [])
    (hbytes : chunks.flatten = others.flatten) {fuel : Nat} {sink : Sink} {w : World} {bytes : Bytes}
    {stop : Option Stop} (hwrites : Writes fuel (chunks.map .chunk) sink (app, w) bytes stop)
    (hended : stop ≠ some .outOfFuel) :
    (∃ least, ∀ fuel, least ≤ fuel → Writes fuel (others.map .chunk) sink (app, w) bytes stop) ∧
      ∀ fuel bytes' stop', Writes fuel (others.map .chunk) sink (app, w) bytes' stop' →
        stop' = some .outOfFuel ∨ bytes' = bytes ∧ stop' = stop := by
  have hroot : ∀ root, app.root = some root → root.Unpulled := fun root hroot =>
    (happ.built_within.2 root hroot).unpulled
  obtain ⟨least, hleast⟩ := writes_others hroot hchunks hothers hbytes hwrites hended
  refine ⟨⟨least, hleast⟩, fun fuel' bytes' stop' hother => or_iff_not_imp_left.2 fun hended' => ?_⟩
  obtain ⟨least', hleast'⟩ := writes_others hroot hothers hothers rfl hother hended'
  have hone := writes_iff.1 (hleast _ (Nat.le_max_left least least'))
  have htwo := writes_iff.1 (hleast' _ (Nat.le_max_right least least'))
  exact Prod.mk.inj (htwo.symm.trans hone)

theorem run_chunks_affixed :
    let affix : Builtin := ⟨"prefix", "Str -> Str* -> Str*", 2, "", .concat [0, 1]⟩
    let ty : Ty := .arrow (.str true) (.str true)
    let registry : Registry := ⟨[⟨affix, "text", .arrow (.str false) ty⟩]⟩
    let app : Application :=
      { scope := { registry }, root := some (.curried affix ty [.textOf [62]]) }
    Scripted registry {} app ∧
      Writes 9 (List.map .chunk [[104], [105]]) {} (app, {}) [62, 104, 105] none ∧
      ∃ least, ∀ fuel, least ≤ fuel →
        Writes fuel (List.map .chunk [[104, 105]]) {} (app, {}) [62, 104, 105] none := by
  intro affix ty registry app
  have htokens : Script.tokens "prefix :>:" = .ok [⟨.name "prefix", ⟨0, 6⟩⟩, ⟨.text ">", ⟨7, 3⟩⟩,
      ⟨.stop, ⟨10, 0⟩⟩] := rfl
  have hbuild : build (puller 9) "prefix :>:" ({ scope := { registry } }, {}) = .ok () (app, {}) := by
    rw [build, parse, Script.ofSource, htokens]
    cbv
  have happ : Scripted registry {} app := .built .new hbuild
  have hwrites : Writes 9 (List.map .chunk [[104], [105]]) {} (app, {}) [62, 104, 105] none :=
    writes_iff.2 (by cbv)
  have hchunks : ∀ chunk ∈ ([[104], [105]] : List Bytes), chunk ≠ [] := by decide
  have hothers : ∀ chunk ∈ ([[104, 105]] : List Bytes), chunk ≠ [] := by decide
  exact ⟨happ, hwrites, (run_chunks happ hchunks hothers rfl hwrites (by simp)).1⟩

end Application

end PullScript
