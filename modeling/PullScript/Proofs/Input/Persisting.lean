import PullScript.Proofs.Eval.Calls
import PullScript.Proofs.Input.Resuming

namespace PullScript

open Act

variable {known : Bool} {items : Nat → Option Value} {s : Value × World} {reads : List Read}

theorem Read.ahead_filter (reads : List Read) : ahead (reads.filter (!·.fails)) = ahead reads := by
  induction reads with
  | nil => rfl
  | cons first reads ih =>
    cases first with
    | failure message => exact ih
    | chunk bytes =>
      cases bytes with
      | nil => rfl
      | cons b bytes => exact congrArg (b :: bytes ++ ·) ih

namespace Value

/-- What a list answers that is asked for its next item a number of times, whatever calls fail. -/
def nexts (n : Nat) : (calls : Nat) → Value × World → List (Except Stop (Option Value))
  | 0, _ => []
  | calls + 1, s =>
    match (puller n).next s with
    | .ok item s => .ok item :: nexts n calls s
    | .error stop s => .error stop :: nexts n calls s

/-- Over the world `w`, where at most `failing` reads fail, a list gives the items that it gives over `w₀`: calls fail by
reads that fail, and the other ones are answered as over `w₀`. -/
def Persists (list : Value) (w w₀ : World) (failing : Nat) : Prop :=
  ∃ enough, ∀ n ≥ enough, ∀ calls,
    (∀ stop, .error stop ∈ nexts n calls (list, w) → ∃ message, stop = .failed (.io message)) ∧
    (nexts n calls (list, w)).countP (!·.isOk) ≤ failing ∧
    (nexts n calls (list, w)).filter (·.isOk) = nexts n ((nexts n calls (list, w)).countP (·.isOk)) (list, w₀)

end Value

namespace Resumes

variable {n : Nat} {P : Bool → Nat → (Nat → Option Value) → Value × World → Prop}

theorem next_ok (h : Resumes (fun ask => (puller n).pull (.list ask)) P) (hs : P known 0 items s) :
    ∃ s', (puller n).next s = .ok (items 0) s' ∧ P false 0 (fun k => items (k + 1)) s' := by
  obtain ⟨_, s', hrun, rfl, hs'⟩ | ⟨_, _, -, _, hfewer, -⟩ := (h.next hs).cases
  · exact ⟨s', hrun, hs'⟩
  · exact absurd hfewer (Nat.not_lt_zero _)

theorem nexts (h : Resumes (fun ask => (puller n).pull (.list ask)) P) (calls : Nat) {known₀ : Bool} {tries : Nat}
    {s₀ : Value × World} (hs : P known tries items s) (hs₀ : P known₀ 0 items s₀) :
    (∀ stop, .error stop ∈ Value.nexts n calls s → ∃ message, stop = .failed (.io message)) ∧
    (Value.nexts n calls s).countP (!·.isOk) ≤ tries ∧
    (Value.nexts n calls s).filter (·.isOk) = Value.nexts n ((Value.nexts n calls s).countP (·.isOk)) s₀ := by
  induction calls generalizing known known₀ tries items s s₀ with
  | zero => simp [Value.nexts]
  | succ calls ih =>
    rw [Value.nexts]
    obtain ⟨_, s', hrun, rfl, hs'⟩ | ⟨message, s', hrun, fewer, hfewer, hs'⟩ := (h.next hs).cases <;> rw [hrun]
    · obtain ⟨s₀', hrun₀, hs₀'⟩ := h.next_ok hs₀
      obtain ⟨herrors, hcount, hsame⟩ := ih hs' hs₀'
      refine ⟨by simpa using herrors, by simpa [Except.isOk, Except.toBool] using hcount, ?_⟩
      rw [List.filter_cons_of_pos rfl, List.countP_cons_of_pos rfl, Value.nexts, hrun₀, hsame]
    · obtain ⟨herrors, hcount, hsame⟩ := ih hs' hs₀
      refine ⟨fun stop hstop => ?_, ?_, ?_⟩
      · rcases List.mem_cons.1 hstop with heq | hmem
        · cases heq
          exact ⟨_, rfl⟩
        · exact herrors stop hmem
      · rw [List.countP_cons_of_pos rfl]
        omega
      · rw [List.filter_cons_of_neg Bool.false_ne_true, List.countP_cons_of_neg Bool.false_ne_true, hsame]

theorem persists {list : Value} {w w₀ : World} {failing least : Nat}
    (h : ∀ n > least, ∃ P, Resumes (fun ask => (puller (n + 1)).pull (.list ask)) P ∧ P false failing items (list, w) ∧
      P false 0 items (list, w₀)) :
    list.Persists w w₀ failing := by
  refine ⟨least + 2, fun n hn calls => ?_⟩
  obtain _ | n := n
  · omega
  obtain ⟨P, hresumes, hs, hs₀⟩ := h n (by omega)
  exact hresumes.nexts calls hs hs₀

end Resumes

theorem World.ahead_fresh {w : World} {tap : Nat} (h : w.taps[tap]? = some { reads := reads }) :
    w.Ahead tap 0 (reads.countP Read.fails) (Read.ahead reads) := by
  obtain ⟨hsize, htap⟩ := Array.getElem?_eq_some_iff.1 h
  refine ⟨hsize, Nat.zero_le _, ?_, ?_⟩ <;> simp [tapAt, h, Tap.total, Tap.failures]

theorem World.ahead_filtered {w : World} {tap : Nat} (h : tap < w.taps.size) :
    (w.withTap tap { reads := reads.filter (!·.fails) }).Ahead tap 0 0 (Read.ahead reads) := by
  let quiet : Tap := { reads := reads.filter (!·.fails) }
  have hquiet : (w.withTap tap quiet).taps[tap]? = some quiet := by simp [withTap, h]
  obtain ⟨hsize, hoffset, hrest, -⟩ := ahead_fresh hquiet
  rw [Read.ahead_filter] at hrest
  refine ⟨hsize, hoffset, hrest, Nat.le_of_eq ?_⟩
  rw [tapAt_withTap h, Tap.failures]
  simp [List.countP_eq_zero]

namespace Value

variable {w w₀ : World} {tap failing : Nat} {rest : Bytes} (h : w.Ahead tap 0 failing rest) (h₀ : w₀.Ahead tap 0 0 rest)
  (primary : Bool) (name : String) (ty : Ty)
include h h₀

theorem persists_bytes : (suspended name ty [.input tap 0 primary] (.bytes [])).Persists w w₀ failing := by
  refine Resumes.persists fun n hn => ⟨_,
    Resumes.inside (fun _ => ByteList.resumes n name ty) (fun s => s.1.suspend (.bytes s.2)) fun ask s w => ?_,
    ⟨_, rfl, .mk h hn fun hfalse => by cases hfalse⟩, ⟨_, rfl, .mk h₀ hn fun hfalse => by cases hfalse⟩⟩
  exact ⟨_, within_run s (fun s => s.1.suspend (.bytes s.2)) (ByteList.answer (puller n) ask) (s.1.suspend (.bytes s.2)) w⟩

theorem persists_units (unit : TextUnit) :
    (suspended name ty [.input tap 0 primary] (.units unit {})).Persists w w₀ failing := by
  refine Resumes.persists fun n hn => ⟨_,
    Resumes.inside (fun _ => Cutter.resumes n ty unit) (fun s => (⟨name, ty, [s.2]⟩ : Bound).suspend (.units unit s.1))
      fun ask s => ?_,
    ⟨_, rfl, .uncut h hn⟩, ⟨_, rfl, .uncut h₀ hn⟩⟩
  have hunits : Inner (fun s : Cutter × Value => ((⟨name, ty, [s.2]⟩ : Bound), s.1)) s
      (Cutter.answer (puller n) ty unit ask) (answerUnits (puller n) unit ask) :=
    fun w => ⟨_, within_run s (fun s => ((⟨name, ty, [s.2]⟩ : Bound), s.1)) (Cutter.answer (puller n) ty unit ask)
      (⟨name, ty, [s.2]⟩, s.1) w⟩
  have htask : Inner (fun s : Bound × Cutter => s.1.suspend (.units unit s.2)) (⟨name, ty, [s.2]⟩, s.1)
      (answerUnits (puller n) unit ask) ((puller (n + 1)).pull (.list ask)) :=
    fun w => ⟨_, within_run ((⟨name, ty, [s.2]⟩ : Bound), s.1) (fun s => s.1.suspend (.units unit s.2))
      (answerUnits (puller n) unit ask) ((⟨name, ty, [s.2]⟩ : Bound).suspend (.units unit s.1)) w⟩
  exact hunits.trans htask

theorem persists_clusters : (clustersOf (.input tap 0 primary)).Persists w w₀ failing := by
  refine Resumes.persists fun n hn => ⟨_,
    Resumes.inside (fun s => Cutter.resumes n (clustersOf s.2).ty .grapheme) (fun s => clusters s.2 s.1) fun ask s w => ?_,
    ⟨_, rfl, .uncut h hn⟩, ⟨_, rfl, .uncut h₀ hn⟩⟩
  exact ⟨_, within_run s (fun s => clusters s.2 s.1) (Cutter.answer (puller n) (clustersOf s.2).ty .grapheme ask)
    (clusters s.2 s.1) w⟩

theorem persists_split (separator : Bytes) :
    (suspended name ty [.textOf separator, .input tap 0 primary] (.split {})).Persists w w₀ failing := by
  have hresumes (n : Nat) : Resumes (fun ask => (puller (n + 1)).pull (.list ask)) _ :=
    Resumes.inside (fun _ => Splitter.resumes n name ty separator) (fun s => s.1.suspend (.split s.2)) fun ask s w =>
      ⟨_, within_run s (fun s => s.1.suspend (.split s.2)) (Splitter.answer (puller n) ask) (s.1.suspend (.split s.2)) w⟩
  by_cases hseparator : separator = []
  · exact Resumes.persists fun n (hn : n > 0) => ⟨_, hresumes n,
      ⟨_, rfl, .endless hseparator hn (.inr ⟨rfl, rfl⟩) (.inl ⟨rfl, rfl⟩)⟩,
      ⟨_, rfl, .endless hseparator hn (.inr ⟨rfl, rfl⟩) (.inl ⟨rfl, rfl⟩)⟩⟩
  · obtain ⟨pieces, hcuts⟩ : ∃ pieces, Bytes.Cuts separator ([] ++ rest) pieces := Bytes.Cuts.exists_pieces hseparator rest
    exact Resumes.persists fun n hn => ⟨_, hresumes n, ⟨_, rfl, .uncut hseparator (.inr ⟨rfl, rfl⟩) h hn hcuts⟩,
      ⟨_, rfl, .uncut hseparator (.inr ⟨rfl, rfl⟩) h₀ hn hcuts⟩⟩

end Value

/-- Cutting the text of an input in one way or another, whatever reads fail. An input is cut into bytes, code points and
grapheme clusters, coerced to the list of its clusters or split at a text; asked for one item after the other, whatever
calls fail, each of these lists gives the items that it gives over the reader without the reads that fail. -/
theorem Value.cut_persists {registry : Registry} (hregistry : Registry.standard = .ok registry) {w : World} {tap : Nat}
    {reads : List Read} (htap : w.taps[tap]? = some { reads := reads }) (primary : Bool) :
    let input : Value := .input tap 0 primary
    let w₀ := w.withTap tap { reads := reads.filter (!·.fails) }
    let failing := reads.countP Read.fails
    (∀ name ∈ ["bytes", "codepoints", "graphemes"], ∃ f list, registry.lookup? name = some f ∧ Calls f [input] list ∧
      list.Persists w w₀ failing) ∧
    (∀ p, (coerce p input (.lst [.str false] true false) : Act Value Value) = pure (clustersOf input)) ∧
    (clustersOf input).Persists w w₀ failing ∧
    ∀ separator, ∃ f list, registry.lookup? "split" = some f ∧ Calls f [.textOf separator, input] list ∧
      list.Persists w w₀ failing := by
  intro input w₀ failing
  have h := World.ahead_fresh htap
  have h₀ : w₀.Ahead tap 0 0 (Read.ahead reads) := World.ahead_filtered h.1
  refine ⟨?_, fun _ => rfl, persists_clusters h h₀ primary, fun separator => ?_⟩
  · simp only [List.forall_mem_cons, List.not_mem_nil, false_implies, implies_true, and_true]
    refine ⟨?_, ?_, ?_⟩
    · obtain ⟨doc, hfound⟩ : ∃ doc, registry.lookup? "bytes" =
          some (.head ⟨"bytes", "Str* -> [Num]*", 1, doc, .bytes⟩ _) :=
        Registry.lookup?_of_standard hregistry (by simp [Catalogue.standard, Catalogue.text]) (by cbv)
      exact ⟨_, _, hfound, .givenText rfl rfl (.none _), persists_bytes h h₀ primary ..⟩
    · obtain ⟨doc, hfound⟩ : ∃ doc, registry.lookup? "codepoints" =
          some (.head ⟨"codepoints", "Str* -> [Num]*", 1, doc, .units .codePoint⟩ _) :=
        Registry.lookup?_of_standard hregistry (by simp [Catalogue.standard, Catalogue.text]) (by cbv)
      exact ⟨_, _, hfound, .givenText rfl rfl (.none _), persists_units h h₀ primary ..⟩
    · obtain ⟨doc, hfound⟩ : ∃ doc, registry.lookup? "graphemes" =
          some (.head ⟨"graphemes", "Str* -> [Str]*", 1, doc, .units .grapheme⟩ _) :=
        Registry.lookup?_of_standard hregistry (by simp [Catalogue.standard, Catalogue.text]) (by cbv)
      exact ⟨_, _, hfound, .givenText rfl rfl (.none _), persists_units h h₀ primary ..⟩
  · obtain ⟨doc, hfound⟩ : ∃ doc, registry.lookup? "split" =
        some (.head ⟨"split", "Str -> Str* -> [Str*]*", 2, doc, .split⟩ _) :=
      Registry.lookup?_of_standard hregistry (by simp [Catalogue.standard, Catalogue.text]) (by cbv)
    exact ⟨_, _, hfound, .givenText rfl rfl (.givenText rfl rfl (.none _)), persists_split h h₀ primary ..⟩

theorem Value.cut_persists_comma :
    let reads : List Read := [.chunk [97, 44], .failure "lost", .chunk [44, 98]]
    let w : World := { taps := #[{ reads := reads }] }
    let w₀ : World := { taps := #[{ reads := [.chunk [97, 44], .chunk [44, 98]] }] }
    ∃ registry, Registry.standard = .ok registry ∧ w.taps[0]? = some { reads := reads } ∧
      ∃ f list, registry.lookup? "split" = some f ∧ Calls f [.textOf [44], .input 0 0 true] list ∧
        list.Persists w w₀ 1 := by
  intro reads w w₀
  obtain ⟨registry, hregistry⟩ := Registry.exists_standard
  have htap : w.taps[0]? = some { reads := reads } := rfl
  exact ⟨registry, hregistry, htap, (cut_persists hregistry htap true).2.2.2 [44]⟩

end PullScript
