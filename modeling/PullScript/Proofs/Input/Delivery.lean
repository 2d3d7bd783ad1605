import PullScript.Proofs.Input.Sharing
import PullScript.Proofs.World.Sink

namespace PullScript

variable {tap' : Tap} {offset : Nat} {others : List Cursor}

theorem foldl_min_least (numbers : List Nat) (n : Nat) :
    (∀ k ∈ n :: numbers, numbers.foldl min n ≤ k) ∧ numbers.foldl min n ∈ n :: numbers := by
  induction numbers generalizing n with
  | nil => simp
  | cons k numbers ih =>
    obtain ⟨hle, hmem⟩ := ih (min n k)
    rw [List.foldl_cons]
    have hmin := hle (min n k) List.mem_cons_self
    constructor
    · intro j hj
      obtain rfl | rfl | hj := by simpa using hj
      · omega
      · omega
      · exact hle j (List.mem_cons_of_mem _ hj)
    · obtain hmem | hmem := List.mem_cons.1 hmem
      · rw [hmem]
        obtain h | h := Nat.le_total n k
        · simp [Nat.min_eq_left h]
        · simp [Nat.min_eq_right h]
      · exact List.mem_cons_of_mem _ (List.mem_cons_of_mem _ hmem)

theorem Tap.Filled.isPrefix {tap : Tap} {asked : List Read} {message : Option String}
    (h : Filled tap offset asked tap' message) : tap.read.toList <+: tap'.read.toList :=
  ⟨_, h.read_eq.symm⟩

theorem Tap.Asked.fill {tap : Tap} {before asked : List Read} {message : Option String} (h : tap.Asked before)
    (hfilled : Filled tap offset asked tap' message) : tap'.Asked (before ++ asked) := by
  have hbefore := h.length_le
  have hasked := hfilled.asked_le
  have hpulls : tap.pulls ≤ tap'.pulls := by
    obtain hsame | ⟨hone, -⟩ := hfilled.pulls <;> omega
  refine ⟨?_, ?_, ?_⟩
  · rw [hfilled.read_eq, h.read_eq, List.flatMap_append]
  · rw [List.length_append]
    omega
  · rw [hfilled.ended_iff, h.ended_iff, List.mem_append, List.length_append]
    constructor
    · rintro ((hmem | hlt) | hmem | hlt)
      · exact .inl (.inl hmem)
      · exact .inr (by omega)
      · exact .inl (.inr hmem)
      · exact .inr (by omega)
    · rintro ((hmem | hmem) | hlt)
      · exact .inl (.inl hmem)
      · exact .inr (.inl hmem)
      · by_cases hlt' : before.length < tap.pulls
        · exact .inl (.inr hlt')
        · exact .inr (.inr (by omega))

theorem Cursor.Reads.extend {c : Cursor} {t : Nat} {tap : Tap} (h : c.Reads t tap)
    (hread : tap.read.toList <+: tap'.read.toList) (hbase : tap'.base ≤ c.offset) : c.Reads t tap' := by
  have hupto := h.le_upto
  obtain ⟨news, hnews⟩ := hread
  refine ⟨h.input, hbase, ?_, h.start_le, ?_⟩
  · rw [Tap.upto_eq, ← hnews, List.length_append, ← Tap.upto_eq]
    omega
  · rw [h.delivered, ← hnews, List.take_append_of_le_length (Tap.upto_eq tap ▸ hupto)]

def Cursor.streamed (c : Cursor) (t : Nat) (primary : Bool) (tap : Tap) : Cursor where
  value := .input t tap.upto primary
  start := c.start
  delivered := c.delivered ++ tap.after c.offset

theorem Cursor.Reads.stream {c : Cursor} {t : Nat} {tap : Tap} (h : c.Reads t tap) (primary : Bool)
    (hread : tap.read.toList <+: tap'.read.toList) (hbase : tap'.base ≤ tap'.upto) :
    (c.streamed t primary tap').Reads t tap' := by
  obtain ⟨news, hnews⟩ := hread
  have hlength : c.offset ≤ tap.read.toList.length := tap.upto_eq ▸ h.le_upto
  have hupto : c.offset ≤ tap'.upto := by
    rw [Tap.upto_eq, ← hnews, List.length_append]
    omega
  refine ⟨⟨primary, rfl⟩, hbase, Nat.le_refl _, Nat.le_trans h.start_le hupto, ?_⟩
  change c.delivered ++ tap'.after c.offset = (tap'.read.toList.take tap'.upto).drop c.start
  have htake : tap.read.toList.take c.offset = tap'.read.toList.take c.offset := by
    rw [← hnews, List.take_append_of_le_length hlength]
  have hstart : c.start ≤ (tap'.read.toList.take c.offset).length := by
    rw [List.length_take, ← Tap.upto_eq, Nat.min_eq_left hupto]
    exact h.start_le
  calc c.delivered ++ tap'.after c.offset
      = (tap'.read.toList.take c.offset).drop c.start ++ tap'.read.toList.drop c.offset := by
        rw [h.delivered, htake, Tap.after_eq]
    _ = (tap'.read.toList.take c.offset ++ tap'.read.toList.drop c.offset).drop c.start := by
        rw [List.drop_append_of_le_length hstart]
    _ = (tap'.read.toList.take tap'.upto).drop c.start := by
        rw [List.take_append_drop, Tap.upto_eq, List.take_length]

namespace Sharing

variable {s : Sharing} {t : Nat} {reads : List Read}

namespace Consistent

theorem filled_eq (h : s.Consistent t reads) {tap : Tap} (hread : s.tap.read.toList <+: tap.read.toList) :
    s.filled tap = tap.read.toList.drop s.tap.base := by
  obtain ⟨news, hnews⟩ := hread
  have hbase := h.base_le
  rw [Tap.upto_eq] at hbase
  rw [filled, h.cache, ← hnews, Tap.upto_eq, List.drop_left, List.drop_append_of_le_length hbase]

theorem next (h : s.Consistent t reads) {base : Nat} {asked : List Read} {tap : Tap} {message : Option String}
    {live : List Cursor} (hfilled : s.tap.Filled offset asked tap message) (hbase : s.tap.base ≤ base)
    (hupto : base ≤ tap.upto) (hlive : ∀ c ∈ live, c.Reads t { tap with base }) :
    (s.next { tap with base } live).Consistent t reads := by
  refine ⟨?_, hupto, ?_, hlive⟩
  · obtain ⟨before, hbefore, hasked⟩ := h.read
    have hboth := hasked.fill hfilled
    refine ⟨before ++ asked, ?_, hboth.read_eq, hboth.length_le, hboth.ended_iff⟩
    rw [hbefore, hfilled.reads_eq, List.append_assoc]
    rfl
  · change (s.filled tap).drop (base - s.tap.base) = tap.read.toList.drop base
    rw [h.filled_eq hfilled.isPrefix, List.drop_drop]
    congr 1
    omega

theorem fill (h : s.Consistent t reads) {asked : List Read} {tap : Tap} {message : Option String}
    (hfilled : s.tap.Filled offset asked tap message) : (s.next tap s.live).Consistent t reads := by
  have hgrows := hfilled.isPrefix.length_le
  rw [← Tap.upto_eq, ← Tap.upto_eq] at hgrows
  change (s.next { tap with base := tap.base } s.live).Consistent t reads
  refine h.next hfilled (Nat.le_of_eq hfilled.base_eq.symm) ?_ ?_
  · rw [hfilled.base_eq]
    exact Nat.le_trans h.base_le hgrows
  · intro c hc
    refine (h.live c hc).extend hfilled.isPrefix ?_
    rw [hfilled.base_eq]
    exact (h.live c hc).base_le

end Consistent

variable {asked : List Read} {tap : Tap} {message : Option String} {w : World}

theorem asked_of_filled {c : Cursor} (hc : c.Reads t s.tap) (hfilled : s.tap.Filled c.offset asked tap message) :
    tap.pulls = s.tap.pulls ∧ tap.reads = s.tap.reads ∧ tap.read = s.tap.read ∨
      tap.pulls = s.tap.pulls + 1 ∧ c.offset = s.tap.upto ∧ s.tap.ended = false := by
  obtain hsame | ⟨hone, hle, hended⟩ := hfilled.pulls
  · rw [hfilled.unasked hsame]
    exact .inl ⟨rfl, rfl, rfl⟩
  · exact .inr ⟨hone, Nat.le_antisymm hc.le_upto hle, hended⟩

theorem Surrounds.oldest (h : Surrounds t tap others w) (upto : Nat) :
    w.oldestAround t upto ≤ upto ∧ (∀ d ∈ others, w.oldestAround t upto ≤ d.offset) ∧
      (w.oldestAround t upto = upto ∨ ∃ d ∈ others, d.offset = w.oldestAround t upto) := by
  obtain ⟨hle, hmem⟩ := foldl_min_least (w.offsetsAround t) upto
  refine ⟨hle upto List.mem_cons_self, ?_, ?_⟩
  · intro d hd
    exact hle _ (List.mem_cons_of_mem _ (h.held.mem_iff.2 (List.mem_map_of_mem hd)))
  · obtain hupto | haround := List.mem_cons.1 hmem
    · exact .inl hupto
    · obtain ⟨d, hd, hoffset⟩ := List.mem_map.1 (h.held.mem_iff.1 haround)
      exact .inr ⟨d, hd, hoffset⟩

variable {c : Cursor} {outcome : Outcome} {s' : Sharing}

section

variable (h : s.Consistent t reads)
include h

theorem Consistent.moves_of_fill (hc : c ∈ s.live)
    (hfilled : s.tap.Filled c.offset asked tap message) (hstreamed : outcome ≠ .streamed)
    (hsaid : ∀ ended, outcome = .said ended → ended = tap.atEnd c.offset) : s.Moves c outcome (s.next tap s.live) where
  written hwritten := absurd hwritten hstreamed
  kept hkept := absurd hkept hstreamed
  asked := asked_of_filled (h.live c hc) hfilled
  failed _ _ := by
    refine ⟨rfl, hfilled.base_eq, ?_⟩
    change s.cache <+: (s.filled tap).drop (tap.base - s.tap.base)
    rw [hfilled.base_eq, Nat.sub_self, List.drop_zero]
    exact List.prefix_append _ _
  said ended hended := by
    have hupto := ((h.fill hfilled).live c hc).le_upto
    change c.offset ≤ tap.upto at hupto
    change ended = true ↔ c.offset = tap.upto ∧ tap.ended = true
    rw [hsaid ended hended, Tap.atEnd, Bool.and_eq_true, decide_eq_true_eq]
    exact and_congr_left fun _ => ⟨fun hle => Nat.le_antisymm hupto hle, fun heq => Nat.le_of_eq heq.symm⟩

theorem Consistent.base_trim (hothers : ∀ d ∈ others, d.Reads t s.tap)
    (hw : Surrounds t s.tap others w) (hfilled : s.tap.Filled offset asked tap message) :
    s.tap.base ≤ w.oldestAround t tap.upto ∧
      (tap.trim (w.oldestAround t tap.upto)).base = w.oldestAround t tap.upto := by
  have hgrows := hfilled.isPrefix.length_le
  rw [← Tap.upto_eq, ← Tap.upto_eq] at hgrows
  have hbase : s.tap.base ≤ w.oldestAround t tap.upto := by
    obtain heq | ⟨d, hd, heq⟩ := (hw.oldest tap.upto).2.2
    · rw [heq]
      exact Nat.le_trans h.base_le hgrows
    · rw [← heq]
      exact (hothers d hd).base_le
  refine ⟨hbase, ?_⟩
  change max tap.base _ = _
  rw [hfilled.base_eq, Nat.max_eq_right hbase]

theorem Consistent.stream {front back : List Cursor} (hlive : s.live = front ++ c :: back)
    (hw : Surrounds t s.tap (front ++ back) w) (hfilled : s.tap.Filled c.offset asked tap none) (primary : Bool) :
    let s' := s.next (tap.trim (w.oldestAround t tap.upto))
      (front ++ c.streamed t primary tap :: back)
    s'.Consistent t reads ∧ s.Moves c .streamed s' := by
  have hc : c.Reads t s.tap := h.live c (by simp [hlive])
  have hothers : ∀ d ∈ front ++ back, d.Reads t s.tap := by
    intro d hd
    refine h.live d ?_
    rw [hlive]
    exact (List.perm_middle.symm.subset (List.mem_cons_of_mem c hd))
  obtain ⟨hupto, hleast, hreached⟩ := hw.oldest tap.upto
  obtain ⟨hbase, htrim⟩ := h.base_trim hothers hw hfilled
  generalize hoffset : w.oldestAround t tap.upto = oldest at *
  have hread : s.tap.read.toList <+: (tap.trim oldest).read.toList := hfilled.isPrefix
  have hbase' : s.tap.base ≤ (tap.trim oldest).base := htrim.symm ▸ hbase
  have hupto' : (tap.trim oldest).base ≤ (tap.trim oldest).upto := htrim.symm ▸ hupto
  have hc' : (c.streamed t primary tap).Reads t (tap.trim oldest) := hc.stream primary hread hupto'
  have hlive' : ∀ d ∈ front ++ c.streamed t primary tap :: back,
      d.Reads t (tap.trim oldest) := by
    intro d hd
    obtain rfl | hd := List.mem_cons.1 (List.perm_middle.subset hd)
    · exact hc'
    · exact (hothers d hd).extend hread (htrim.symm ▸ hleast d hd)
  have hs' : (s.next (tap.trim oldest) (front ++ c.streamed t primary tap :: back)).Consistent t reads :=
    h.next hfilled hbase' hupto' hlive'
  have hasked := asked_of_filled hc hfilled
  refine ⟨hs', ?_, ?_, hasked, by simp, by simp⟩
  · refine fun _ => ⟨.input t tap.upto primary, ?_⟩
    have hahead : (s.filled (tap.trim oldest)).drop (c.offset - s.tap.base) = tap.after c.offset := by
      rw [h.filled_eq hread, List.drop_drop, Nat.add_sub_cancel' hc.base_le, Tap.after_eq, Tap.read_trim]
    change ⟨_, _, _ ++ (s.filled (tap.trim oldest)).drop _⟩ ∈ front ++ c.streamed t primary tap :: back
    rw [hahead]
    exact List.mem_append_right _ List.mem_cons_self
  · intro _
    have hlength := congrArg List.length hs'.cache
    change _ = ((tap.trim oldest).read.toList.drop (tap.trim oldest).base).length at hlength
    rw [htrim, List.length_drop, ← Tap.upto_eq, Tap.upto_trim] at hlength
    have hkept : (tap.trim oldest).kept = tap.upto - oldest := by
      rw [Tap.kept, htrim]
      rfl
    -- The cursor that was streamed has nothing ahead, so only another one can hold the base back.
    obtain rfl | ⟨d, hd, rfl⟩ := hreached
    · refine ⟨_, List.mem_append_right _ List.mem_cons_self, ?_, hlength, hkept.trans hlength.symm⟩
      intro d hd
      exact Nat.le_trans (Nat.le_of_eq htrim.symm) (hlive' d hd).base_le
    · refine ⟨d, List.perm_middle.symm.subset (List.mem_cons_of_mem _ hd), ?_, hlength, hkept.trans hlength.symm⟩
      intro e he
      exact Nat.le_trans (Nat.le_of_eq htrim.symm) (hlive' e he).base_le

theorem Consistent.copy (hc : c ∈ s.live) :
    Cursor.Reads ⟨c.value.copy, c.offset, []⟩ t s.tap := by
  have hreads := h.live c hc
  obtain ⟨primary, hinput⟩ := hreads.input
  have hoffset : Cursor.offset ⟨c.value.copy, c.offset, []⟩ = c.offset := by
    rw [hinput]
    rfl
  refine ⟨⟨false, ?_⟩, ?_, ?_, Nat.le_of_eq hoffset.symm, ?_⟩
  · rw [hoffset, hinput]
    rfl
  · rw [hoffset]
    exact hreads.base_le
  · rw [hoffset]
    exact hreads.le_upto
  · rw [hoffset]
    exact (List.drop_eq_nil_of_le (List.length_take_le ..)).symm

theorem Consistent.step (hstep : Step t s c outcome s') :
    s'.Consistent t reads ∧ s.Moves c outcome s' := by
  cases hstep with
  | copied hc =>
    refine ⟨⟨h.read, h.base_le, h.cache, ?_⟩, by simp, by simp, .inl ⟨rfl, rfl, rfl⟩, by simp, by simp⟩
    exact List.forall_mem_cons.2 ⟨h.copy hc, h.live⟩
  | @dropped front back _ hlive =>
    refine ⟨⟨h.read, h.base_le, h.cache, ?_⟩, by simp, by simp, .inl ⟨rfl, rfl, rfl⟩, by simp, by simp⟩
    intro d hd
    exact h.live d (hlive ▸ List.perm_middle.symm.subset (List.mem_cons_of_mem c hd))
  | @streamed front back _ _ _ w _ hlive hw hpull =>
    obtain ⟨primary, hinput⟩ := (h.live c (by simp [hlive])).input
    rw [hinput] at hpull
    obtain ⟨tap, out, hfill, hwrite, rfl, rfl⟩ := stream_input_ok hpull
    obtain ⟨asked, hfilled⟩ := Tap.fillFor_filled (hw.tap_eq ▸ hfill)
    have hbytes : out.bytes.drop w.out.bytes.length = tap.after c.offset := by
      rw [Sink.bytes_of_write hwrite, List.drop_left]
    have htap := World.tapAt_withTap hw.inBounds (tap.trim (w.oldestAround t tap.upto))
    have hstream := h.stream hlive hw hfilled primary
    rw [← htap, Cursor.streamed, ← hbytes] at hstream
    exact hstream
  | @said front back _ _ _ _ w _ hlive hw hpull =>
    have hc : c ∈ s.live := by simp [hlive]
    obtain ⟨primary, hinput⟩ := (h.live c hc).input
    rw [hinput] at hpull
    obtain ⟨tap, hfill, hended, rfl, rfl⟩ := ended_input_ok hpull
    obtain ⟨asked, hfilled⟩ := Tap.fillFor_filled (hw.tap_eq ▸ hfill)
    rw [World.tapAt_withTap hw.inBounds, ← hinput, ← hlive]
    exact ⟨h.fill hfilled, h.moves_of_fill hc hfilled (by simp) (by rintro _ ⟨⟩; exact hended)⟩
  | @failed front back _ _ _ _ _ w _ hlive hw hask hpull =>
    have hc : c ∈ s.live := by simp [hlive]
    obtain ⟨primary, hinput⟩ := (h.live c hc).input
    rw [hinput] at hpull
    obtain ⟨tap, message, out, hfill, rfl, rfl⟩ := input_error hask hpull
    obtain ⟨asked, hfilled⟩ := Tap.fillFor_filled (hw.tap_eq ▸ hfill)
    have htap : World.tapAt { w.withTap t tap with out } t = tap := World.tapAt_withTap hw.inBounds tap
    rw [htap, ← hinput, ← hlive]
    exact ⟨h.fill hfilled, h.moves_of_fill hc hfilled (by simp) (by simp)⟩

end

theorem consistent_initial (t : Nat) (reads : List Read) : (initial t reads).Consistent t reads where
  read := ⟨[], rfl, rfl, Nat.le_refl _, by simp [initial]⟩
  base_le := Nat.le_refl _
  cache := rfl
  live := by
    intro c hc
    cases List.mem_singleton.1 hc
    exact ⟨⟨true, rfl⟩, Nat.le_refl _, Nat.le_refl _, Nat.le_refl _, rfl⟩

end Sharing

/-- An input and its copies, in whatever order they are streamed, asked for their end, copied and
given up, and whatever fails on the way: each is delivered the bytes of the input without a gap from
where it started, the tap keeps just what one of them has ahead, and every step does what
`Sharing.Moves` says. -/
theorem Shared.delivery {t : Nat} {reads : List Read} {s : Sharing} (h : Shared t reads s) :
    s.Consistent t reads ∧
      ∀ c outcome s', Step t s c outcome s' → s.Moves c outcome s' := by
  have hconsistent : s.Consistent t reads := by
    induction h with
    | initial => exact Sharing.consistent_initial t reads
    | step _ hstep ih => exact (ih.step hstep).1
  exact ⟨hconsistent, fun c outcome s' hstep => (hconsistent.step hstep).2⟩

/-- The input is copied and streamed, and then the reader fails: the copy still has ahead what the
input was given. -/
theorem Shared.delivery_copied :
    let reads : List Read := [.chunk [1, 2], .failure "torn", .chunk [3]]
    ∃ s c stop s', Shared 0 reads s ∧ s.cache = [1, 2] ∧ s.live.map Cursor.offset = [0, 2] ∧
      Step 0 s c (.failed stop) s' ∧ s.Consistent 0 reads ∧ s.Moves c (.failed stop) s' := by
  intro reads
  let held : World := { around := [[.input 0 0 false]] }
  let input : Cursor := ⟨.input 0 0 true, 0, []⟩
  let copy : Cursor := ⟨.input 0 0 false, 0, []⟩
  let tap : Tap := { reads := reads.tail, read := #[1, 2], pulls := 1 }
  let s : Sharing := ⟨tap, [1, 2], [copy, ⟨.input 0 2 true, 0, [1, 2]⟩]⟩
  have hcopied : Shared 0 reads ⟨{ reads }, [], [copy, input]⟩ :=
    Shared.initial.step (@Step.copied 0 (.initial 0 reads) input List.mem_cons_self)
  have hstreamed : Shared 0 reads s :=
    hcopied.step (@Step.streamed 0 ⟨{ reads }, [], [copy, input]⟩ [copy] [] input 0 (.input 0 2 true)
      { held with taps := #[{ reads }] } { held with taps := #[tap], out := ⟨#[1, 2], none⟩ } rfl
      ⟨by decide, rfl, .refl _⟩ rfl)
  have hfailed := @Step.failed 0 s [copy] [] ⟨.input 0 2 true, 0, [1, 2]⟩ 0 _ .stream _
    { held with taps := #[tap] } _ rfl ⟨by decide, rfl, .refl _⟩ (.inl rfl) rfl
  have hdelivery := hstreamed.delivery
  exact ⟨s, _, _, _, hstreamed, rfl, rfl, hfailed, hdelivery.1, hdelivery.2 _ _ _ hfailed⟩

end PullScript
