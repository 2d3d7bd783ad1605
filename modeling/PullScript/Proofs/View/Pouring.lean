import PullScript.Proofs.View.Built

namespace PullScript

open Act

namespace TextView

variable {feed : Feed} {t : TextView} {all : Bytes} {last : Nat}

structure Ends (feed : Feed) (t : TextView) (last : Nat) (all : Bytes) : Prop where
  runs : t.Runs feed 0 last all
  ended : (t.ended last).Gives feed true

theorem runs_of_rounds {n fuel i : Nat} {soFar : Bytes}
    (h : View.rounds (t.readRound fun _ => false) (viewer feed n) fuel (i, soFar) = some (.ok all)) :
    ∃ last rest, all = soFar ++ rest ∧ t.Runs feed i last rest ∧ (t.ended last).Gives feed true := by
  induction fuel generalizing i soFar with
  | zero => cases h
  | succ fuel ih =>
    rw [View.rounds, readRound_of_not_enough rfl, View.run_bind] at h
    rcases hnext : (t.next i).run (viewer feed n) with _ | error | chunk
    · simp [hnext] at h
    · simp [hnext] at h
    · cases chunk with
      | none =>
        simp only [hnext, Option.bind_some, View.andThen, View.run_pure, Option.some.injEq, Except.ok.injEq] at h
        exact ⟨i, [], by simp [h], .refl i, next_gives_none_iff.1 ⟨n, hnext⟩⟩
      | some chunk =>
        simp only [hnext, Option.bind_some, View.andThen, View.run_pure] at h
        obtain ⟨last, rest, rfl, hruns, hended⟩ := ih h
        exact ⟨last, chunk ++ rest, List.append_assoc .., .step ⟨n, hnext⟩ hruns, hended⟩

theorem exists_ends_of_whole (h : t.whole.Gives feed all) : ∃ last, t.Ends feed last all := by
  obtain ⟨n, hn⟩ := h
  obtain ⟨last, rest, rfl, hruns, hended⟩ := runs_of_rounds hn
  exact ⟨last, hruns, hended⟩

theorem Ends.of_ofValue {value : Value} (hkind : value.kind = .str) (h : (TextView.ofValue feed value).Ends feed last all) :
    (TextView.of value).Ends feed last all :=
  ⟨h.runs.of_ofValue hkind, next_gives_none_iff.1 ((next_of_gives_iff hkind).2 (next_gives_none_iff.2 h.ended))⟩

theorem Ends.after {α : Type} {first : View α} {text : α → TextView} {x : α} (hfirst : first.Gives feed x)
    (h : (text x).Ends feed last all) : (TextView.after first text).Ends feed last all :=
  ⟨h.runs.after hfirst, hfirst.bind h.ended⟩

/-- All bytes of a value are those up to its end. A value that hands the question on to another one is as deep as that
one is. -/
theorem exists_ends_of_ask {value : Value} (h : (View.ask value .whole).Gives feed all) :
    ∃ last, (TextView.of value).Ends feed last all := by
  obtain ⟨n, hn⟩ := h
  induction n generalizing value with
  | zero => cases hn
  | succ n ih =>
    have hkind : value.kind = .str := by
      obtain ⟨⟨⟩, hrequire, -⟩ := View.run_bind_eq_ok_iff.1 hn
      exact View.gives_require_iff.1 ⟨n, hrequire⟩
    have hwhole : (View.wholeOf feed value).run (viewer feed n) = some (.ok all) :=
      (View.run_ask feed .whole hkind n).symm.trans hn
    unfold View.wholeOf at hwhole
    split at hwhole
    · obtain ⟨last, hends⟩ := ih hwhole
      exact ⟨last, Ends.of_ofValue hkind hends⟩
    · obtain ⟨item, hitem, hwhole⟩ := View.run_bind_eq_ok_iff.1 hwhole
      obtain ⟨last, hends⟩ := ih hwhole
      exact ⟨last, Ends.of_ofValue hkind (hends.after ⟨n, hitem⟩)⟩
    · obtain ⟨last, hends⟩ := exists_ends_of_whole ⟨n, hwhole⟩
      exact ⟨last, hends.of_ofValue hkind⟩

theorem Ends.rest (h : t.Ends feed last all) {i : Nat} {soFar : Bytes} (hfront : t.Runs feed 0 i soFar) :
    ∃ rest, all = soFar ++ rest ∧ t.Runs feed i last rest :=
  h.runs.split hfront (hfront.le_of_ended h.runs h.ended)

theorem Ends.next (h : t.Ends feed last all) {i : Nat} {soFar : Bytes} (hfront : t.Runs feed 0 i soFar) :
    (i = last ∧ (t.next i).Gives feed none) ∨ i < last ∧ ∃ chunk, (t.next i).Gives feed (some chunk) := by
  obtain ⟨rest, -, hrest⟩ := h.rest hfront
  cases hrest with
  | refl => exact .inl ⟨rfl, next_gives_none_iff.2 h.ended⟩
  | step hnext hrest => exact .inr ⟨hrest.le, _, hnext⟩

end TextView

inductive TextAsked where
  | ended (answer : Bool)
  | stream

namespace TextAsked

inductive Gets : TextAsked → Value × World → Value × World → Prop
  | ended {n : Nat} {e : Bool} {s s' : Value × World} : (puller n).textEnded s = .ok e s' → Gets (.ended e) s s'
  | stream {n : Nat} {s s' : Value × World} : (puller n).stream s = .ok () s' → Gets .stream s s'

def streams : List TextAsked → Nat
  | [] => 0
  | .ended _ :: asks => streams asks
  | .stream :: asks => streams asks + 1

end TextAsked

inductive Poured : Value × World → List TextAsked → Value × World → Prop
  | nil (s : Value × World) : Poured s [] s
  | cons {asked : TextAsked} {asks : List TextAsked} {s s' s'' : Value × World} :
    asked.Gets s s' → Poured s' asks s'' → Poured s (asked :: asks) s''

structure Value.PouredTo (feed : Feed) (text : Value) (before : Bytes) (i : Nat) (sent : Bytes)
    (s : Value × World) : Prop where
  place : ∃ seen, s.2.Stocked feed seen ∧ text.At feed seen i s.1
  runs : (TextView.of text).Runs feed 0 i sent
  out : s.2.out.bytes = before ++ sent

namespace Value.PouredTo

variable {feed : Feed} {text : Value} {before sent all : Bytes} {i last : Nat} {s s' : Value × World}

section

variable (h : text.PouredTo feed before i sent s)
include h

theorem ended_sound (htext : text.Unpulled) {e : Bool} (hgets : (TextAsked.ended e).Gets s s') :
    ((TextView.of text).ended i).Gives feed e ∧ text.PouredTo feed before i sent s' := by
  cases hgets with
  | @ended n _ _ _ hrun =>
    obtain ⟨⟨seen, hstocked, hat⟩, hruns, hout⟩ := h
    obtain ⟨seen', _, _, hgives, hmoves, rfl, rfl, hat'⟩ := (((pulls feed n).text htext).ended hat).sound hstocked hrun
    exact ⟨hgives, ⟨seen', hmoves.stocked, hat'⟩, hruns, by rw [hmoves.out, hout, List.append_nil]⟩

theorem stream_sound (htext : text.Unpulled)
    (hgets : TextAsked.stream.Gets s s') : ∃ chunk j more, ((TextView.of text).next i).Gives feed chunk ∧
      (TextView.of text).Passed feed i chunk j more ∧ text.PouredTo feed before j (sent ++ more) s' := by
  cases hgets with
  | @stream n _ _ hrun =>
    obtain ⟨⟨seen, hstocked, hat⟩, hruns, hout⟩ := h
    obtain ⟨seen', chunk, more, hgives, hmoves, hstreamed⟩ := (((pulls feed n).text htext).stream hat).sound hstocked hrun
    obtain ⟨j, hat', hpassed⟩ := TextView.streamed_iff.1 hstreamed
    refine ⟨chunk, j, more, hgives, hpassed, ⟨seen', hmoves.stocked, hat'⟩, ?_, ?_⟩
    · cases chunk with
      | none =>
        obtain ⟨rfl, rfl⟩ := hpassed
        rwa [List.append_nil]
      | some chunk => exact hruns.trans hpassed.2
    · rw [hmoves.out, hout, List.append_assoc]

theorem ended_complete (htext : text.Unpulled) {e : Bool} (hgives : ((TextView.of text).ended i).Gives feed e) :
    ∃ t, Comes (fun n => (puller n).textEnded) s (.ok e t) := by
  obtain ⟨⟨seen, hstocked, hat⟩, -, -⟩ := h
  obtain ⟨n, hn⟩ := hgives
  obtain ⟨_, _, _, _, _, hcomes, -, rfl, -⟩ := (((pulls feed n).text htext).ended hat).complete hstocked hn
  exact ⟨_, hcomes⟩

theorem stream_complete (htext : text.Unpulled) {chunk : Option Bytes}
    (hgives : ((TextView.of text).next i).Gives feed chunk) :
    ∃ t, Comes (fun n => (puller n).stream) s (.ok () t) := by
  obtain ⟨⟨seen, hstocked, hat⟩, -, -⟩ := h
  obtain ⟨n, hn⟩ := hgives
  obtain ⟨_, _, _, _, _, hcomes, -⟩ := (((pulls feed n).text htext).stream hat).complete hstocked hn
  exact ⟨_, hcomes⟩

theorem comes (htext : text.Unpulled) (hends : (TextView.of text).Ends feed last all) :
    (∃ e t, Comes (fun n => (puller n).textEnded) s (.ok e t)) ∧
      ∃ t, Comes (fun n => (puller n).stream) s (.ok () t) := by
  obtain ⟨-, hnext⟩ | ⟨-, chunk, hnext⟩ := hends.next h.runs
  · exact ⟨⟨true, h.ended_complete htext (TextView.next_gives_none_iff.1 hnext)⟩, h.stream_complete htext hnext⟩
  · exact ⟨⟨false, h.ended_complete htext (TextView.next_gives_some_iff.1 hnext).1⟩, h.stream_complete htext hnext⟩

end

theorem poured {asks : List TextAsked} (hpoured : Poured s asks s') (h : text.PouredTo feed before i sent s)
    (htext : text.Unpulled) (hends : (TextView.of text).Ends feed last all) :
    ∃ j more, text.PouredTo feed before j (sent ++ more) s' ∧ min last (i + TextAsked.streams asks) ≤ j := by
  induction hpoured generalizing i sent with
  | nil s => exact ⟨i, [], by rwa [List.append_nil], Nat.min_le_right ..⟩
  | @cons asked asks _ _ _ hgets _ ih =>
    cases asked with
    | ended e => exact ih (h.ended_sound htext hgets).2
    | stream =>
      obtain ⟨chunk, j, more, hgives, hpassed, hplace⟩ := h.stream_sound htext hgets
      obtain ⟨k, more', hplace', hle⟩ := ih hplace
      rw [List.append_assoc] at hplace'
      refine ⟨k, more ++ more', hplace', ?_⟩
      simp only [TextAsked.streams]
      cases chunk with
      | none =>
        obtain ⟨rfl, -⟩ | ⟨-, c, hc⟩ := hends.next h.runs
        · obtain rfl := hpassed.2
          omega
        · cases hgives.unique hc
      | some chunk =>
        have hlt := hpassed.1
        omega

theorem eq_last_of_ended (h : text.PouredTo feed before i sent s) (hends : (TextView.of text).Ends feed last all)
    (hended : ((TextView.of text).ended i).Gives feed true) : i = last := by
  obtain ⟨rest, -, hrest⟩ := hends.rest h.runs
  exact (hrest.of_ended hended).1.symm

theorem of_last_le (h : text.PouredTo feed before i sent s) (hends : (TextView.of text).Ends feed last all)
    (hle : last ≤ i) : text.PouredTo feed before last all s := by
  obtain rfl := Nat.le_antisymm (h.runs.le_of_ended hends.runs hends.ended) hle
  rwa [hends.runs.unique h.runs]

theorem comes_ended (h : text.PouredTo feed before last all s) (htext : text.Unpulled)
    (hends : (TextView.of text).Ends feed last all) : ∃ t, Comes (fun n => (puller n).textEnded) s (.ok true t) :=
  h.ended_complete htext hends.ended

end Value.PouredTo

/-- However calls that stream a text are mixed with calls that ask for its end, each of them is answered, and what has
come out is a front of what draining a copy of the text gives. Where the text says that it has ended, all of that has
come out, and nothing follows; and it does say so after enough calls. -/
theorem Value.Built.poured_alike {registry : Registry} (hregistry : Registry.standard = .ok registry) {text : Value}
    (hbuilt : text.Built registry true) {w : World} (hroom : w.out.limit = none) {n : Nat} {drained : Value × World}
    {all : Bytes} (hdrain : (puller n).drain (text.copy, w) = .ok () drained)
    (hall : drained.2.out.bytes = w.out.bytes ++ all) :
    drained.2.feed = w.feed ∧ ∀ w' : World, w'.feed = w.feed → w'.out.limit = none →
      (∀ asks s, Poured (text, w') asks s →
        (∃ e t, Comes (fun n => (puller n).textEnded) s (.ok e t)) ∧
        (∃ t, Comes (fun n => (puller n).stream) s (.ok () t)) ∧
        (∃ sent, s.2.out.bytes = w'.out.bytes ++ sent ∧ sent <+: all) ∧
        ∀ t, (TextAsked.ended true).Gets s t → t.2.out.bytes = w'.out.bytes ++ all ∧
          ∀ more t', Poured t more t' → t'.2.out.bytes = t.2.out.bytes ∧
            ∃ t'', Comes (fun n => (puller n).textEnded) t' (.ok true t'')) ∧
      ∃ enough, ∀ asks s, Poured (text, w') asks s → enough ≤ TextAsked.streams asks →
        ∃ t, Comes (fun n => (puller n).textEnded) s (.ok true t) := by
  have htext := hbuilt.unpulled
  obtain ⟨seen, _, _, hwhole, hmoves, rfl, -⟩ :=
    ((pulls w.feed n).drain htext htext.at_copy).sound (World.stocked hroom) hdrain
  obtain rfl := List.append_cancel_left (hmoves.out.symm.trans hall)
  obtain ⟨last, hends⟩ := TextView.exists_ends_of_ask hwhole
  refine ⟨funext hmoves.stocked.stock, fun w' hfeed hroom' => ?_⟩
  have hstart : text.PouredTo w.feed w'.out.bytes 0 [] (text, w') :=
    ⟨⟨w'.read, hfeed ▸ World.stocked hroom', htext.at_start⟩, .refl 0, (List.append_nil _).symm⟩
  refine ⟨fun asks s hpoured => ?_, last, fun asks s hpoured henough => ?_⟩
  · obtain ⟨i, sent, hplace, -⟩ := hstart.poured hpoured htext hends
    rw [List.nil_append] at hplace
    obtain ⟨hended, hstream⟩ := hplace.comes htext hends
    obtain ⟨rest, hrest, -⟩ := hends.rest hplace.runs
    refine ⟨hended, hstream, ⟨sent, hplace.out, rest, hrest.symm⟩, fun t hgets => ?_⟩
    obtain ⟨htrue, hplace'⟩ := hplace.ended_sound htext hgets
    have hlast := hplace'.of_last_le hends (Nat.le_of_eq (hplace.eq_last_of_ended hends htrue).symm)
    refine ⟨hlast.out, fun more t' hmore => ?_⟩
    obtain ⟨j, later, hplace'', hle⟩ := hlast.poured hmore htext hends
    have hstill := hplace''.of_last_le hends (by omega)
    exact ⟨hstill.out.trans hlast.out.symm, hstill.comes_ended htext hends⟩
  · obtain ⟨i, sent, hplace, hle⟩ := hstart.poured hpoured htext hends
    exact (hplace.of_last_le hends (by omega)).comes_ended htext hends

def Value.inputBehind : Value :=
  .suspended "prefix" (.str true) [.text [97] false, .input 0 0 true] (.concat ⟨[0, 1], [0, 1]⟩)

def World.twoReads : World :=
  { taps := #[{ reads := [.chunk [98, 99], .chunk [100]] }] }

theorem Value.Built.poured_alike_inputBehind :
    ∃ drained s t, (puller 9).drain (inputBehind.copy, .twoReads) = .ok () drained ∧
      Poured (inputBehind, .twoReads) [.ended false, .stream, .ended false, .stream, .stream] s ∧
      (TextAsked.ended true).Gets s t ∧ t.2.out.bytes = drained.2.out.bytes := by
  obtain ⟨registry, hregistry⟩ := Registry.exists_standard
  have hbuilt : inputBehind.Built registry true :=
    .applied (built_putInFront hregistry true) (.input 0 rfl) (w := {}) (n := 2) (by cbv)
  suffices h : ∃ drained s t, (puller 9).drain (inputBehind.copy, .twoReads) = .ok () drained ∧
      Poured (inputBehind, .twoReads) [.ended false, .stream, .ended false, .stream, .stream] s ∧
      (TextAsked.ended true).Gets s t by
    obtain ⟨drained, s, t, hdrain, hpoured, hended⟩ := h
    obtain ⟨-, hpours⟩ := hbuilt.poured_alike hregistry rfl hdrain rfl
    obtain ⟨-, -, -, hall⟩ := (hpours .twoReads rfl rfl).1 _ s hpoured
    exact ⟨drained, s, t, hdrain, hpoured, hended, (hall t hended).1⟩
  exact ⟨_, _, _, by cbv, .cons (.ended (n := 9) (by cbv)) (.cons (.stream (n := 9) (by cbv))
    (.cons (.ended (n := 9) (by cbv)) (.cons (.stream (n := 9) (by cbv)) (.cons (.stream (n := 9) (by cbv)) (.nil _))))),
    .ended (n := 9) (by cbv)⟩

end PullScript
