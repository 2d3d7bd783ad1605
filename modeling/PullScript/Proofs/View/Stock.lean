import PullScript.Proofs.Eval.Input
import PullScript.Proofs.View.Contents

namespace PullScript

def Stock.ofReads : List Read → Stock
  | [] => ⟨[], none⟩
  | .failure message :: _ => ⟨[], some message⟩
  | .chunk [] :: _ => ⟨[], none⟩
  | .chunk bytes :: reads => ⟨bytes ++ (ofReads reads).bytes, (ofReads reads).broken⟩

namespace Tap

def stock (tap : Tap) : Stock :=
  if tap.ended then ⟨tap.read.toList, none⟩
  else ⟨tap.read.toList ++ (Stock.ofReads tap.reads).bytes, (Stock.ofReads tap.reads).broken⟩

variable {tap tap' : Tap} {offset : Nat}

@[simp]
theorem stock_trim (tap : Tap) (oldest : Nat) : (tap.trim oldest).stock = tap.stock :=
  rfl

theorem exists_stock_bytes (tap : Tap) : ∃ rest, tap.stock.bytes = tap.read.toList ++ rest := by
  unfold stock
  split
  · exact ⟨[], (List.append_nil _).symm⟩
  · exact ⟨_, rfl⟩

theorem upto_le_stock (tap : Tap) : tap.upto ≤ tap.stock.bytes.length := by
  obtain ⟨rest, hrest⟩ := tap.exists_stock_bytes
  rw [hrest, upto_eq, List.length_append]
  exact Nat.le_add_right _ _

theorem after_eq_stock (tap : Tap) (hoffset : offset ≤ tap.upto) :
    tap.after offset = (tap.stock.bytes.drop offset).take (tap.upto - offset) := by
  obtain ⟨rest, hrest⟩ := tap.exists_stock_bytes
  rw [upto_eq] at *
  rw [after_eq, hrest, List.drop_append_of_le_length hoffset, ← List.length_drop, List.take_left]

inductive Refilled (tap : Tap) (offset : Nat) : Prop
  | more (tap' : Tap) : tap.fillFor offset = (tap', none) → tap'.stock = tap.stock →
    tap.upto ≤ tap'.upto → offset < tap'.upto → Refilled tap offset
  | ended (tap' : Tap) : tap.fillFor offset = (tap', none) → tap'.stock = tap.stock →
    tap'.upto = offset → tap.upto = offset → tap'.ended = true →
    tap.stock.bytes.length = offset → tap.stock.broken = none → Refilled tap offset
  | broken (tap' : Tap) (message : String) : tap.fillFor offset = (tap', some message) →
    tap.stock.bytes.length = offset → tap.stock.broken = some message → Refilled tap offset

theorem refilled (tap : Tap) {offset : Nat} (hoffset : offset ≤ tap.upto) : Refilled tap offset := by
  by_cases hseen : tap.upto ≤ offset
  · obtain rfl : tap.upto = offset := Nat.le_antisymm hseen hoffset
    cases hended : tap.ended with
    | true =>
      refine .ended tap ?_ rfl rfl rfl hended ?_ ?_ <;> simp [fillFor, fill, stock, hended, upto]
    | false =>
      cases hreads : tap.reads with
      | nil =>
        refine .ended { tap with pulls := tap.pulls + 1, ended := true } ?_ ?_ rfl rfl rfl ?_ ?_ <;>
          simp [fillFor, fill, stock, Stock.ofReads, hended, hreads, upto]
      | cons first reads =>
        cases first with
        | failure message =>
          refine .broken { tap with pulls := tap.pulls + 1, reads } message ?_ ?_ ?_ <;>
            simp [fillFor, fill, stock, Stock.ofReads, hended, hreads, upto]
        | chunk bytes =>
          cases bytes with
          | nil =>
            refine .ended { tap with pulls := tap.pulls + 1, reads, ended := true } ?_ ?_ rfl rfl rfl ?_ ?_ <;>
              simp [fillFor, fill, stock, Stock.ofReads, hended, hreads, upto]
          | cons byte bytes =>
            have hgrown : (tap.read ++ byte :: bytes).size = tap.upto + (bytes.length + 1) := by
              rw [← Array.length_toList]
              simp [upto]
            refine .more { tap with pulls := tap.pulls + 1, reads, read := tap.read ++ byte :: bytes } ?_ ?_ ?_ ?_
            · simp [fillFor, fill, hended, hreads]
            · simp [stock, Stock.ofReads, hended, hreads]
            · change tap.upto ≤ (tap.read ++ byte :: bytes).size
              omega
            · change tap.upto < (tap.read ++ byte :: bytes).size
              omega
  · exact .more tap (by simp [fillFor, hseen]) rfl (Nat.le_refl _) (by omega)

end Tap

def Further (seen seen' : Reach) : Prop :=
  ∀ tap, seen tap ≤ seen' tap

theorem Further.refl (seen : Reach) : Further seen seen :=
  fun _ => Nat.le_refl _

theorem Further.trans {seen seen' seen'' : Reach} (h : Further seen seen') (h' : Further seen' seen'') :
    Further seen seen'' :=
  fun tap => Nat.le_trans (h tap) (h' tap)

namespace World

variable {feed : Feed} {seen : Reach} {w : World} {tap offset : Nat}

/-- Readers have in stock what `feed` says, at least `seen` bytes have been read from each of them,
and what is streamed finds room. -/
structure Stocked (feed : Feed) (seen : Reach) (w : World) : Prop where
  stock : ∀ tap, (w.tapAt tap).stock = feed tap
  seen : ∀ tap, seen tap ≤ (w.tapAt tap).upto
  room : w.out.limit = none

def read (w : World) : Reach :=
  fun tap => (w.tapAt tap).upto

theorem Stocked.around (h : w.Stocked feed seen) (around : List (List Value)) :
    World.Stocked feed seen { w with around } :=
  ⟨h.stock, h.seen, h.room⟩

theorem Stocked.redirect (h : w.Stocked feed seen) {out : Sink} (hout : out.limit = none) :
    World.Stocked feed seen { w with out } :=
  ⟨h.stock, h.seen, hout⟩

theorem tapAt_withTap_of_ne {tap other : Nat} (h : other ≠ tap) (w : World) (t : Tap) :
    (w.withTap tap t).tapAt other = w.tapAt other := by
  simp [tapAt, withTap, h.symm]

theorem tapAt_withTap_eq (w : World) (tap : Nat) (t : Tap) :
    (w.withTap tap t).tapAt tap = if tap < w.taps.size then t else w.tapAt tap := by
  split
  case isTrue hlt => exact tapAt_withTap hlt t
  case isFalse hge => simp [tapAt, withTap, hge]

theorem Stocked.withTap (h : w.Stocked feed seen) {t : Tap} (hstock : t.stock = (w.tapAt tap).stock)
    (hupto : (w.tapAt tap).upto ≤ t.upto) : (w.withTap tap t).Stocked feed seen where
  stock other := by
    by_cases hne : other = tap
    · subst hne
      rw [tapAt_withTap_eq]
      split
      · rw [hstock, h.stock]
      · exact h.stock _
    · rw [tapAt_withTap_of_ne hne, h.stock]
  seen other := by
    by_cases hne : other = tap
    · subst hne
      rw [tapAt_withTap_eq]
      split
      · exact Nat.le_trans (h.seen _) hupto
      · exact h.seen _
    · rw [tapAt_withTap_of_ne hne]
      exact h.seen _
  room := h.room

theorem upto_tapAt_withTap {t : Tap} (hstock : t.stock = (w.tapAt tap).stock)
    (hupto : (w.tapAt tap).upto ≤ t.upto) : ((w.withTap tap t).tapAt tap).upto = t.upto := by
  rw [tapAt_withTap_eq]
  split
  case isTrue => rfl
  case isFalse hge =>
    have hdefault : w.tapAt tap = { reads := [] } := by simp [tapAt, hge]
    have hle := t.upto_le_stock
    rw [hstock, hdefault] at hle
    rw [hdefault] at hupto ⊢
    exact Nat.le_antisymm hupto hle

end World

end PullScript
