import PullScript.Proofs.View.Rules

namespace PullScript

variable {value : Value} {α : Type} {k : Nat} {x : α}

namespace View

variable {feed : Feed}

theorem gives_ask_fitting {query : Query} {reply : query.Reply} (hkind : value.kind = query.kind) :
    (ask value query).Gives feed reply ↔ (glanceFitting feed value query).Gives feed reply := by
  have hglance : (ask value query).Gives feed reply ↔ (glance feed value query).Gives feed reply := by
    constructor
    · rintro ⟨_ | n, h⟩
      · cases h
      · exact ⟨n, h⟩
    · rintro ⟨n, h⟩
      exact ⟨n + 1, h⟩
  rw [hglance, glance, gives_bind_iff]
  exact ⟨fun ⟨_, _, h⟩ => h, fun h => ⟨(), gives_require_iff.2 hkind, h⟩⟩

theorem gives_bind_of {β : Type} {m : View α} {next : α → View β} {y : β} (hx : m.Gives feed x) :
    (m >>= next).Gives feed y ↔ (next x).Gives feed y := by
  rw [gives_bind_iff]
  constructor
  · rintro ⟨x', hx', hy⟩
    rwa [hx.unique hx']
  · exact fun hy => ⟨x, hx, hy⟩

end View

namespace ListView

structure HasItem (feed : Feed) (l : ListView) (k : Nat) (item : Value) : Prop where
  ended : (l.ended k).Gives feed false
  item : (l.item k).Gives feed item
  step : (l.step k).Gives feed ()

theorem HasItem.next {feed : Feed} {l : ListView} {item : Value} (h : l.HasItem feed k item) :
    (l.next k).Gives feed (some item) :=
  h.ended.bind (h.item.bind (h.step.bind (.pure _)))

def Shows (feed : Feed) (l : ListView) (items : List Value) : Prop :=
  ∀ (k : Nat) (item : Value), items[k]? = some item → l.HasItem feed k item

structure Holds (feed : Feed) (l : ListView) (items : List Value) : Prop where
  shows : l.Shows feed items
  ends : (l.ended items.length).Gives feed true

variable {feed : Feed} {l l' : ListView} {items : List Value}

theorem Shows.take (h : l.Shows feed items) (n : Nat) : l.Shows feed (items.take n) :=
  fun k item hitem => h k item (by
    rw [List.getElem?_take] at hitem
    split at hitem
    · exact hitem
    · cases hitem)

structure Alike (feed : Feed) (l l' : ListView) : Prop where
  ended : ∀ k e, (l.ended k).Gives feed e ↔ (l'.ended k).Gives feed e
  item : ∀ k x, (l.item k).Gives feed x ↔ (l'.item k).Gives feed x
  step : ∀ k, (l.step k).Gives feed () ↔ (l'.step k).Gives feed ()

theorem Alike.symm (h : l.Alike feed l') : l'.Alike feed l :=
  ⟨fun k e => (h.ended k e).symm, fun k x => (h.item k x).symm, fun k => (h.step k).symm⟩

theorem Alike.shows (h : l.Alike feed l') (hshows : l.Shows feed items) : l'.Shows feed items := by
  intro k item hitem
  obtain ⟨he, hx, hstep⟩ := hshows k item hitem
  exact ⟨(h.ended k _).1 he, (h.item k _).1 hx, (h.step k).1 hstep⟩

theorem Alike.holds (h : l.Alike feed l') (hholds : l.Holds feed items) : l'.Holds feed items :=
  ⟨h.shows hholds.shows, (h.ended _ _).1 hholds.ends⟩

theorem alike_ofValue (hkind : value.kind = .lst) : (ListView.of value).Alike feed (ListView.ofValue value) :=
  ⟨fun _ _ => View.gives_ask_fitting hkind, fun _ _ => View.gives_ask_fitting hkind,
    fun _ => View.gives_ask_fitting hkind⟩

theorem alike_after {first : View α} {list : α → ListView} (hx : first.Gives feed x) :
    (ListView.after first list).Alike feed (list x) :=
  ⟨fun _ _ => View.gives_bind_of hx, fun _ _ => View.gives_bind_of hx, fun _ => View.gives_bind_of hx⟩

theorem alike_arg {b : Bound} (h : b.args[k]? = some value) : (ListView.arg b k).Alike feed (ListView.of value) :=
  alike_after (View.gives_arg_iff.2 h)

theorem holds_ofItems (items : List Value) : (ListView.ofItems items).Holds feed (items.map Value.copy) := by
  refine ⟨fun k item hitem => ?_, View.gives_pure_iff.2 (by simp)⟩
  rw [List.getElem?_map] at hitem
  obtain ⟨x, hx, -⟩ := Option.map_eq_some_iff.1 hitem
  refine ⟨View.gives_pure_iff.2 (by simp [hx]), View.gives_getOr_iff.2 hitem, .pure _⟩

section Taken

variable {limit : View Nat} {n : Nat}

theorem gives_ended_taken (hn : limit.Gives feed n) {e : Bool} :
    ((l.taken limit).ended k).Gives feed e ↔ if n ≤ k then e = true else (l.ended k).Gives feed e := by
  refine (View.gives_bind_of hn).trans ?_
  split
  · rw [View.gives_pure_iff, eq_comm]
  · exact .rfl

theorem Shows.taken (h : l.Shows feed items) (hn : limit.Gives feed n) : (l.taken limit).Shows feed (items.take n) := by
  intro k item hitem
  obtain ⟨hk, -⟩ := List.getElem?_eq_some_iff.1 hitem
  rw [List.length_take] at hk
  obtain ⟨he, hx, hstep⟩ := h.take n k item hitem
  have hended : ((l.taken limit).ended k).Gives feed false := by
    rwa [gives_ended_taken hn, if_neg (by omega)]
  exact ⟨hended, hended.bind hx, hstep⟩

theorem Shows.taken_ends (h : l.Shows feed items) (hn : limit.Gives feed n) (hle : n ≤ items.length) :
    (l.taken limit).Holds feed (items.take n) := by
  refine ⟨h.taken hn, (gives_ended_taken hn).2 ?_⟩
  rw [if_pos (by rw [List.length_take]; omega)]

theorem Holds.taken (h : l.Holds feed items) (hn : limit.Gives feed n) : (l.taken limit).Holds feed (items.take n) := by
  by_cases hle : n ≤ items.length
  · exact h.shows.taken_ends hn hle
  · refine ⟨h.shows.taken hn, (gives_ended_taken hn).2 ?_⟩
    rw [List.length_take, Nat.min_eq_right (by omega), if_neg hle]
    exact h.ends

end Taken

end ListView

end PullScript
