import PullScript.Span

namespace PullScript

theorem byteCount_append (front back : List Char) :
    byteCount (front ++ back) = byteCount front + byteCount back := by
  induction front with
  | nil => simp [byteCount]
  | cons c front ih => simp [byteCount, ih, Nat.add_assoc]

theorem byteCount_pos {chars : List Char} (h : chars ≠ []) : 0 < byteCount chars := by
  cases chars with
  | nil => exact absurd rfl h
  | cons c rest => exact Nat.add_pos_left c.utf8Size_pos _

namespace Span

variable {span : Span} {source inside : List Char}

theorem dropBytes?_append (front back : List Char) : dropBytes? (byteCount front) (front ++ back) = some back := by
  induction front with
  | nil => simp [byteCount, dropBytes?]
  | cons c front ih =>
    have hpos := c.utf8Size_pos
    rw [byteCount, List.cons_append]
    obtain ⟨n, hn⟩ : ∃ n, c.utf8Size + byteCount front = n + 1 := ⟨_, (Nat.succ_pred (by omega)).symm⟩
    rw [hn, dropBytes?, if_pos (by omega), show n + 1 - c.utf8Size = byteCount front by omega]
    exact ih

theorem takeBytes?_append (front back : List Char) : takeBytes? (byteCount front) (front ++ back) = some front := by
  induction front with
  | nil => simp [byteCount, takeBytes?]
  | cons c front ih =>
    have hpos := c.utf8Size_pos
    rw [byteCount, List.cons_append]
    obtain ⟨n, hn⟩ : ∃ n, c.utf8Size + byteCount front = n + 1 := ⟨_, (Nat.succ_pred (by omega)).symm⟩
    rw [hn, takeBytes?, if_pos (by omega), show n + 1 - c.utf8Size = byteCount front by omega, ih, Option.map_some]

def Holds (span : Span) (source inside : List Char) : Prop :=
  ∃ before after, source = before ++ inside ++ after ∧ span = ⟨byteCount before, byteCount inside⟩

theorem Holds.slice? {source : String} (h : span.Holds source.toList inside) : span.slice? source = some inside := by
  obtain ⟨before, after, hsource, rfl⟩ := h
  rw [Span.slice?, hsource, List.append_assoc, dropBytes?_append, Option.bind_some, takeBytes?_append]

theorem Holds.stop_le (h : span.Holds source inside) : span.stop ≤ byteCount source := by
  obtain ⟨before, after, rfl, rfl⟩ := h
  simp only [stop, byteCount_append]
  omega

def Boundary (source : List Char) (offset : Nat) : Prop :=
  ∃ before after, source = before ++ after ∧ offset = byteCount before

theorem Holds.offset_boundary (h : span.Holds source inside) : Boundary source span.offset := by
  obtain ⟨before, after, rfl, rfl⟩ := h
  exact ⟨before, inside ++ after, List.append_assoc .., rfl⟩

theorem Holds.stop_boundary (h : span.Holds source inside) : Boundary source span.stop := by
  obtain ⟨before, after, rfl, rfl⟩ := h
  exact ⟨before ++ inside, after, rfl, (byteCount_append ..).symm⟩

theorem exists_append_of_byteCount_le {front back front' back' : List Char} (h : front ++ back = front' ++ back')
    (hle : byteCount front ≤ byteCount front') : ∃ inside, front' = front ++ inside := by
  obtain ⟨inside, hfront, -⟩ | ⟨inside, hfront, -⟩ := List.append_eq_append_iff.1 h
  · exact ⟨inside, hfront⟩
  · subst hfront
    cases inside with
    | nil => exact ⟨[], by simp⟩
    | cons c rest =>
      have hpos := byteCount_pos (List.cons_ne_nil c rest)
      rw [byteCount_append] at hle
      omega

theorem exists_holds {start stop : Nat} (hstart : Boundary source start) (hstop : Boundary source stop)
    (hle : start ≤ stop) : ∃ inside, Span.Holds ⟨start, stop - start⟩ source inside := by
  obtain ⟨front, back, rfl, rfl⟩ := hstart
  obtain ⟨front', back', heq, rfl⟩ := hstop
  obtain ⟨inside, rfl⟩ := exists_append_of_byteCount_le heq hle
  refine ⟨inside, front, back', heq, ?_⟩
  rw [byteCount_append, Nat.add_sub_cancel_left]

def lastLine (chars : List Char) : List Char :=
  (chars.reverse.takeWhile (· ≠ '\n')).reverse

theorem lastLine_append_of_notMem (front : List Char) {more : List Char} (h : '\n' ∉ more) :
    lastLine (front ++ more) = lastLine front ++ more := by
  have hall : ∀ c ∈ more.reverse, decide (c ≠ '\n') = true := by
    intro c hc
    exact decide_eq_true fun hnewline => h (hnewline ▸ List.mem_reverse.1 hc)
  rw [lastLine, List.reverse_append, List.takeWhile_append_of_pos hall, List.reverse_append, List.reverse_reverse]
  rfl

theorem lastLine_cons_of_mem {c : Char} {rest : List Char} (h : '\n' ∈ rest) : lastLine (c :: rest) = lastLine rest := by
  have hstops : (rest.reverse.takeWhile (· ≠ '\n')).length ≠ rest.reverse.length := by
    intro hlength
    have hself := (List.takeWhile_prefix (l := rest.reverse) (fun c => decide (c ≠ '\n'))).eq_of_length hlength
    have hmem : '\n' ∈ rest.reverse.takeWhile (· ≠ '\n') := by
      rw [hself]
      exact List.mem_reverse.2 h
    have hall := List.all_takeWhile (p := fun c => decide (c ≠ '\n')) (l := rest.reverse)
    simpa using List.all_eq_true.1 hall _ hmem
  rw [lastLine, List.reverse_cons, List.takeWhile_append, if_neg hstops]
  rfl

theorem lastLine_of_notMem {chars : List Char} (h : '\n' ∉ chars) : lastLine chars = chars := by
  simpa [lastLine] using lastLine_append_of_notMem [] h

theorem lastLine_newline {rest : List Char} (h : '\n' ∉ rest) : lastLine ('\n' :: rest) = rest := by
  simpa [lastLine] using lastLine_append_of_notMem ['\n'] h

theorem place_append (line column : Nat) (front back : List Char) :
    place line column (byteCount front) (front ++ back) =
      (line + front.count '\n', if '\n' ∈ front then 1 + (lastLine front).length else column + front.length) := by
  induction front generalizing line column with
  | nil => cases back <;> simp [place, byteCount]
  | cons c rest ih =>
    have hpos := c.utf8Size_pos
    have hsome : c.utf8Size + byteCount rest ≠ 0 := by omega
    rw [List.cons_append, byteCount, place, if_neg hsome, Nat.add_sub_cancel_left, ih, ih]
    by_cases hc : c = '\n'
    · subst hc
      by_cases hrest : '\n' ∈ rest
      · simp [hrest, lastLine_cons_of_mem hrest, Nat.add_assoc, Nat.add_comm 1]
      · simp [hrest, lastLine_newline hrest, Nat.add_assoc, Nat.add_comm 1]
    · by_cases hrest : '\n' ∈ rest
      · simp [hrest, hc, lastLine_cons_of_mem hrest]
      · simp [hrest, hc, Ne.symm hc, Nat.add_assoc, Nat.add_comm 1]

theorem lineColumn_of_append {source : String} {before after : List Char} (hsource : source.toList = before ++ after)
    (hoffset : span.offset = byteCount before) :
    span.lineColumn source = (before.count '\n' + 1, (lastLine before).length + 1) := by
  rw [lineColumn, hsource, hoffset, place_append, Nat.add_comm 1]
  congr 1
  split
  case isTrue => exact Nat.add_comm ..
  case isFalse h => rw [lastLine_of_notMem h, Nat.add_comm]

theorem lineColumn_lt {p q : Span} {source : String} (hp : Boundary source.toList p.offset)
    (hq : Boundary source.toList q.offset) (hlt : p.offset < q.offset) :
    (p.lineColumn source).1 < (q.lineColumn source).1 ∨
      (p.lineColumn source).1 = (q.lineColumn source).1 ∧ (p.lineColumn source).2 < (q.lineColumn source).2 := by
  obtain ⟨front, back, hsource, hfront⟩ := hp
  obtain ⟨front', back', hsource', hfront'⟩ := hq
  rw [hfront, hfront'] at hlt
  obtain ⟨inside, rfl⟩ := exists_append_of_byteCount_le (hsource.symm.trans hsource') (Nat.le_of_lt hlt)
  rw [lineColumn_of_append hsource hfront, lineColumn_of_append hsource' hfront', List.count_append]
  by_cases hnewline : '\n' ∈ inside
  · have hcount := List.count_pos_iff.2 hnewline
    exact .inl (by omega)
  · have hcount := List.count_eq_zero.2 hnewline
    have hinside : inside ≠ [] := by
      rintro rfl
      simp at hlt
    have hlength := List.length_pos_iff.2 hinside
    rw [lastLine_append_of_notMem _ hnewline, List.length_append]
    exact .inr (by omega)

end Span

end PullScript
