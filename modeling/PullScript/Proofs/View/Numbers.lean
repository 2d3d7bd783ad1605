import PullScript.Proofs.Number.Leading
import PullScript.Proofs.Text.Search
import PullScript.Proofs.Text.Settled
import PullScript.Proofs.View.Arguments

namespace PullScript

open Act

variable {γ : Type} {feed : Feed} {n : Nat} {seen : Reach} {value value' : Value} {b b' : Bound}
  {places : Nat → Nat} {k : Nat}

theorem readWhile_tracks (h : Pulls feed n) (hvalue : value.Unpulled) (hat : value.At feed seen 0 value')
    {more : Bytes → Bool} (hmore : ∀ soFar extra, more soFar = false → more (soFar ++ extra) = false) :
    Tracks feed n seen value' (fun f => readWhile (puller f) more) (View.front value more)
      fun seen' least soFar v bytes => bytes = [] ∧ ∃ i, value.At feed seen' i v ∧
        (TextView.of value).Reached feed (fun soFar => !more soFar) least i soFar := by
  have htext := h.text hvalue
  refine (requireKind_tells hat .str).bind ?_
  rintro seen₁ ⟨⟩ _ hfurther - rfl
  refine Tracks.imp (TextView.loop_tracks (fun soFar => !more soFar) (fun _ => [])
    (R := fun seen i soFar buffer v => buffer = soFar ∧ value.At feed seen i v)
    (F := fun seen i soFar buffer v => buffer = soFar ∧ value.At feed seen i v)
    ?_ rfl (fun _ _ => rfl) ?_ ⟨rfl, hat.mono hfurther⟩ (.refl 0)) ?_
  · rintro seen i _ buffer v ⟨rfl, hv⟩
    cases hbuffer : more buffer with
    | false =>
      simp only [TextView.round, hbuffer, Bool.not_false, ↓reduceIte]
      exact .pure ⟨rfl, rfl, hv⟩
    | true =>
      simp only [TextView.round, hbuffer, Bool.not_true, Bool.false_eq_true, ↓reduceIte]
      refine TextView.bindEnded (htext.ended hv) (fun seen' v' _ hv' _ => .pure ⟨rfl, rfl, hv'⟩) ?_
      intro seen' v' _ hv' hgoes
      refine (Tracks.gathered (htext.stream hv')).andThen ?_
      rintro seen'' chunk bytes v'' _ - hchunk ⟨rfl, hstreamed⟩
      obtain ⟨c, j, rfl, hij, hruns, hv''⟩ := hstreamed.of_more hchunk hgoes
      exact .pure ⟨j, bytes, hij, hruns, rfl, rfl, hv''⟩
  · intro soFar extra henough
    simpa using hmore soFar extra (by simpa using henough)
  · rintro seen' least _ v' bytes - - ⟨j, rest, -, rfl, hreached, rfl, hv'⟩
    exact ⟨rfl, j, hv', hreached⟩

theorem Pulls.frontArg (h : Pulls feed n) (hargs : b.Unpulled) (hb : b.At feed seen places b')
    (hk : places k = 0) (more : Bytes → Bool) (g : Bytes → γ)
    (hmore : ∀ soFar extra, more soFar = false → more (soFar ++ extra) = false)
    (hg : ∀ soFar extra, more soFar = false → g (soFar ++ extra) = g soFar) :
    Tracks feed n seen b' (fun f => Bound.on k (readWhile (puller f) more))
      (do View.front (← View.arg b k) more) fun seen' least soFar b'' bytes =>
        bytes = [] ∧ g soFar = g least ∧ ∃ i, b.At feed seen' (Function.update places k i) b'' := by
  refine (hb.on (N := fun _ least soFar _ bytes => bytes = [] ∧ g soFar = g least) fun a a' ha hat => ?_).imp ?_
  · rw [hk] at hat
    refine (readWhile_tracks h (hargs.getElem? ha) hat hmore).imp ?_
    rintro seen' least soFar v _ - - ⟨rfl, i, hv, hreached⟩
    exact ⟨i, hv, rfl, hreached.eq_of_stable fun soFar extra henough => hg soFar extra (by simpa using henough)⟩
  · rintro seen' least soFar b'' _ - - ⟨i, hb'', rfl, hgsame⟩
    exact ⟨rfl, hgsame, i, hb''⟩

theorem searchFor_tells (h : Pulls feed n) (hvalue : value.Unpulled) (hat : value.At feed seen 0 value')
    {needle : Bytes} (hneedle : needle.isEmpty = false) :
    Tells feed n seen value' (fun f => searchFor (puller f) needle) (View.search value needle)
      fun seen' _ v => ∃ i, value.At feed seen' i v := by
  have htext := h.text hvalue
  refine (requireKind_tells hat .str).bind ?_
  rintro seen₁ ⟨⟩ _ hfurther - rfl
  have hempty : Bytes.occursIn needle [] = false := by
    cases needle with
    | nil => cases hneedle
    | cons => rfl
  refine Tracks.mapped (TextView.loop_tracks (Bytes.occursIn needle) (fun _ => [])
    (R := fun seen i soFar window v => Bytes.occursIn needle soFar = false ∧
      window = Bytes.lastBytes (needle.length - 1) soFar ∧ value.At feed seen i v)
    (F := fun seen i soFar found v => found = Bytes.occursIn needle soFar ∧ value.At feed seen i v)
    ?_ rfl (fun _ _ => rfl) (fun _ extra hfound => Bytes.occursIn_append hfound extra)
    ⟨hempty, List.drop_nil.symm, hat.mono hfurther⟩ (.refl 0)) ?_
  · rintro seen i soFar _ v ⟨hnot, rfl, hv⟩
    rw [TextView.round, if_neg (by simp [hnot])]
    refine TextView.bindEnded (htext.ended hv) (fun seen' v' _ hv' _ => .pure ⟨rfl, hnot.symm, hv'⟩) ?_
    intro seen' v' _ hv' hgoes
    refine (Tracks.gathered (htext.stream hv')).andThen ?_
    rintro seen'' chunk bytes v'' _ - hchunk ⟨rfl, hstreamed⟩
    obtain ⟨c, j, rfl, hij, hruns, hv''⟩ := hstreamed.of_more hchunk hgoes
    dsimp only
    rw [Bytes.occursIn_lastBytes_append hnot, Bytes.lastBytes_lastBytes_append]
    cases hfound : Bytes.occursIn needle (soFar ++ bytes) with
    | true => exact .pure ⟨j, bytes, hij, hruns, rfl, hfound, hfound.symm, hv''⟩
    | false => exact .pure ⟨j, bytes, hij, hruns, rfl, hfound, rfl, hv''⟩
  · rintro seen' least found v' bytes - - ⟨j, rest, -, rfl, hreached, rfl, hv'⟩
    refine ⟨hreached.eq_of_stable fun soFar extra hfound => ?_, rfl, j, hv'⟩
    rw [hfound, Bytes.occursIn_append hfound]

theorem Pulls.searchArg (h : Pulls feed n) (hargs : b.Unpulled) (hb : b.At feed seen places b')
    (hk : places k = 0) {needle : Bytes} (hneedle : needle.isEmpty = false) :
    Tells feed n seen b' (fun f => Bound.on k (searchFor (puller f) needle))
      (do View.search (← View.arg b k) needle) fun seen' _ b'' =>
        ∃ i, b.At feed seen' (Function.update places k i) b'' :=
  hb.tellsSome fun a a' ha hat => by
    rw [hk] at hat
    exact searchFor_tells h (hargs.getElem? ha) hat hneedle

section

variable (h : Pulls feed n) (hargs : b.Unpulled) (hb : b.At feed seen places b')
  (hplaces : ∀ i, places i = 0)
include h hargs hb hplaces

theorem twoNumbers_tells (f : Float → Float → Float) :
    Tells feed n seen b'
      (fun k => do
        let x ← Bound.on 0 (puller k).number
        let y ← Bound.on 1 (puller k).number
        return f x y)
      (do
        let x ← View.argNumber b 0
        let y ← View.argNumber b 1
        return f x y) fun seen' _ b'' => ∃ places, b.At feed seen' places b'' := by
  refine (h.numberArg hargs hb (hplaces 0)).bind fun _ x _ _ _ hb₁ => ?_
  refine (h.numberArg hargs hb₁ (hplaces 1)).bind fun _ y _ _ _ hb₂ => ?_
  exact Tells.pure ⟨places, hb₂⟩

theorem Calculation.run_tells (c : Calculation) :
    Tells feed n seen b' (fun k => c.run (puller k)) (c.view b) fun seen' _ b'' =>
      ∃ places, b.At feed seen' places b'' := by
  have hsecond (i : Nat) : Function.update places 0 i 1 = 0 := by
    rw [Function.update_of_ne (by decide)]
    exact hplaces 1
  cases c with
  | abs =>
    exact (h.numberArg hargs hb (hplaces 0)).bind fun _ x _ _ _ hb' => Tells.pure ⟨places, hb'⟩
  | add => exact twoNumbers_tells h hargs hb hplaces (· + ·)
  | sub => exact twoNumbers_tells h hargs hb hplaces (· - ·)
  | mul => exact twoNumbers_tells h hargs hb hplaces (· * ·)
  | div => exact twoNumbers_tells h hargs hb hplaces (· / ·)
  | leadingNumber =>
    have hfront := h.frontArg hargs hb (hplaces 0) Number.mayGoOn Number.ofLeading
      (fun _ extra hmore => Number.mayGoOn_append hmore extra)
      (fun _ extra hmore => Number.ofLeading_append hmore extra)
    rw [Calculation.view, ← bind_assoc]
    refine hfront.bind ?_
    rintro seen' least soFar b'' _ - - ⟨rfl, hsame, i, hb''⟩
    rw [← hsame]
    exact Tells.pure ⟨_, hb''⟩
  | fromBase base =>
    exact (h.bytesArg hargs hb (hplaces 0)).bind fun _ bytes _ _ _ ⟨_, hb'⟩ => Tells.pure ⟨_, hb'⟩
  | codePoint =>
    have hfront := h.frontArg hargs hb (hplaces 0) (fun soFar => soFar.length < 4)
      (fun bytes => (Utf8.lossyFrom 0 bytes).head?) (fun soFar extra hmore => by simp_all; omega)
      (fun soFar extra hmore => Utf8.head?_lossyFrom_append (by simpa using hmore) extra)
    rw [Calculation.view, ← bind_assoc]
    refine hfront.bind ?_
    rintro seen' least soFar b'' _ - - ⟨rfl, hsame, i, hb''⟩
    cases hleast : Utf8.lossyFrom 0 least <;> cases hsoFar : Utf8.lossyFrom 0 soFar <;>
      simp only [hleast, hsoFar] at hsame
    case nil.nil => exact Tells.pure ⟨_, hb''⟩
    case nil.cons => cases hsame
    case cons.nil => cases hsame
    case cons.cons =>
      obtain rfl := Option.some.inj hsame
      exact Tells.pure ⟨_, hb''⟩
  | contains =>
    refine (h.bytesArg hargs hb (hplaces 0)).bind fun _ needle _ _ _ ⟨i, hb₁⟩ => ?_
    cases hneedle : needle.isEmpty with
    | true => exact Tells.pure ⟨_, hb₁⟩
    | false =>
      have hsearch := h.searchArg hargs hb₁ (hsecond i) hneedle
      have hview : (do return truth (← View.search (← View.arg b 1) needle) : View Float) =
          (do View.search (← View.arg b 1) needle) >>= fun found => pure (truth found) :=
        (bind_assoc ..).symm
      rw [hview]
      exact hsearch.bind fun _ found _ _ _ ⟨_, hb₂⟩ => Tells.pure ⟨_, hb₂⟩
  | startsWith =>
    refine (h.bytesArg hargs hb (hplaces 0)).bind fun _ needle _ _ _ ⟨i, hb₁⟩ => ?_
    have hfront := h.frontArg hargs hb₁ (hsecond i) (fun soFar => soFar.length < needle.length)
      needle.isPrefixOf (fun soFar extra hmore => by simp_all; omega)
      (fun soFar extra hmore => Bytes.isPrefixOf_append (by simpa using hmore) extra)
    rw [← bind_assoc]
    refine hfront.bind ?_
    rintro seen' least soFar b'' _ - - ⟨rfl, hsame, j, hb''⟩
    rw [← hsame]
    exact Tells.pure ⟨_, hb''⟩
  | endsWith =>
    refine (h.bytesArg hargs hb (hplaces 0)).bind fun _ needle _ _ _ ⟨i, hb₁⟩ => ?_
    exact (h.bytesArg hargs hb₁ (hsecond i)).bind fun _ text _ _ _ ⟨_, hb₂⟩ => Tells.pure ⟨_, hb₂⟩

theorem Rendering.run_tells (r : Rendering) :
    Tells feed n seen b' (fun k => r.run (puller k)) (r.view b) fun seen' _ b'' =>
      ∃ places, b.At feed seen' places b'' := by
  cases r with
  | decimal =>
    exact (h.numberArg hargs hb (hplaces 0)).bind fun _ x _ _ _ hb' => Tells.pure ⟨places, hb'⟩
  | inBase base =>
    refine (h.numberArg hargs hb (hplaces 0)).bind fun _ x _ _ _ hb' => ?_
    exact (Tells.ofOption (P := fun seen' _ b'' => b.At feed seen' places b'') fun _ _ => hb').bind
      fun _ text _ _ _ hb'' => Tells.pure ⟨places, hb''⟩
  | character =>
    refine (h.numberArg hargs hb (hplaces 0)).bind fun _ x _ _ _ hb' => ?_
    cases characterAt? x with
    | none => exact Tells.fail _
    | some c =>
      dsimp only
      split
      · exact Tells.pure ⟨places, hb'⟩
      · exact Tells.fail _

end

theorem calculated_tells (h : Pulls feed n) (hargs : b.Unpulled) (c : Calculation)
    (hb : b.At feed seen places b') {known : Option Float} (hunknown : known = none → ∀ i, places i = 0)
    (hknown : ∀ x, known = some x → (c.view b).Gives feed x) :
    Tells feed n seen (b', known) (fun k => calculated (puller k) c) (c.view b) fun seen' x s =>
      s.2 = some x ∧ ∃ places, b.At feed seen' places s.1 := by
  refine Tells.look ?_
  cases known with
  | some x => exact Tracks.given (hknown x rfl) (Tells.pure ⟨rfl, places, hb⟩)
  | none =>
    refine Tracks.andThen (Tells.onFirst (c.run_tells h hargs hb (hunknown rfl))) ?_
    rintro seen' x _ s _ - - ⟨rfl, rfl, b'', rfl, hb''⟩
    exact Tracks.afterChange (Tells.pure ⟨rfl, hb''⟩)

end PullScript
