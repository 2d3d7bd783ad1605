import PullScript.Proofs.Eval.Input

namespace PullScript

/-- A value that reads from a shared tap, the offset it started from, and the bytes that its streams
have delivered. -/
structure Cursor where
  value : Value
  start : Nat
  delivered : Bytes

def Cursor.offset (c : Cursor) : Nat :=
  match c.value with
  | .input _ offset _ => offset
  | _ => 0

/-- A tap and the values that share it. The cache is what is left of the bytes read when those that
fall behind the base are really dropped. -/
structure Sharing where
  tap : Tap
  cache : Bytes
  live : List Cursor

namespace Sharing

def initial (t : Nat) (reads : List Read) : Sharing where
  tap := { reads }
  cache := []
  live := [⟨.input t 0 true, 0, []⟩]

def filled (s : Sharing) (tap : Tap) : Bytes :=
  s.cache ++ tap.read.toList.drop s.tap.upto

/-- The tap and the cursors have changed; the cache takes in what was read and drops what has fallen
behind the base. -/
def next (s : Sharing) (tap : Tap) (live : List Cursor) : Sharing where
  tap := tap
  cache := (s.filled tap).drop (tap.base - s.tap.base)
  live := live

/-- A world in which one of the values that share tap `t` is asked: the others are held around. -/
structure Surrounds (t : Nat) (tap : Tap) (others : List Cursor) (w : World) : Prop where
  inBounds : t < w.taps.size
  tap_eq : w.tapAt t = tap
  held : (w.offsetsAround t).Perm (others.map Cursor.offset)

end Sharing

inductive Outcome where
  | copied
  | dropped
  | streamed
  | said (ended : Bool)
  | failed (stop : Stop)

open Sharing in
/-- One of the values that share tap `t`, the cursor given, is copied, given up, streamed or asked
for its end. It may be asked in any world around, with any sink to write to. -/
inductive Step (t : Nat) : Sharing → Cursor → Outcome → Sharing → Prop
  | copied {s : Sharing} {c : Cursor} : c ∈ s.live →
    Step t s c .copied { s with live := ⟨c.value.copy, c.offset, []⟩ :: s.live }
  | dropped {s : Sharing} {front back : List Cursor} {c : Cursor} : s.live = front ++ c :: back →
    Step t s c .dropped { s with live := front ++ back }
  | streamed {s : Sharing} {front back : List Cursor} {c : Cursor} {fuel : Nat} {value : Value}
      {w w' : World} : s.live = front ++ c :: back → Surrounds t s.tap (front ++ back) w →
    pull (fuel + 1) (.text .stream) (c.value, w) = .ok () (value, w') →
    Step t s c .streamed (s.next (w'.tapAt t)
      (front ++ ⟨value, c.start, c.delivered ++ w'.out.bytes.drop w.out.bytes.length⟩ :: back))
  | said {s : Sharing} {front back : List Cursor} {c : Cursor} {fuel : Nat} {value : Value}
      {ended : Bool} {w w' : World} : s.live = front ++ c :: back →
    Surrounds t s.tap (front ++ back) w →
    pull (fuel + 1) (.text .ended) (c.value, w) = .ok ended (value, w') →
    Step t s c (.said ended) (s.next (w'.tapAt t) (front ++ { c with value } :: back))
  | failed {s : Sharing} {front back : List Cursor} {c : Cursor} {fuel : Nat} {value : Value}
      {ask : TextAsk} {stop : Stop} {w w' : World} : s.live = front ++ c :: back →
    Surrounds t s.tap (front ++ back) w → ask = .stream ∨ ask = .ended →
    pull (fuel + 1) (.text ask) (c.value, w) = .error stop (value, w') →
    Step t s c (.failed stop) (s.next (w'.tapAt t) (front ++ { c with value } :: back))

inductive Shared (t : Nat) (reads : List Read) : Sharing → Prop
  | initial : Shared t reads (.initial t reads)
  | step {s s' : Sharing} {c : Cursor} {outcome : Outcome} :
    Shared t reads s → Step t s c outcome s' → Shared t reads s'

/-- A cursor reads from a tap: it is between the base and the last byte read, and has been delivered
what was read from its start to where it is. -/
structure Cursor.Reads (c : Cursor) (t : Nat) (tap : Tap) : Prop where
  input : ∃ primary, c.value = .input t c.offset primary
  base_le : tap.base ≤ c.offset
  le_upto : c.offset ≤ tap.upto
  start_le : c.start ≤ c.offset
  delivered : c.delivered = (tap.read.toList.take c.offset).drop c.start

/-- A tap has made the reads in `asked`, has the bytes that they handed out, and has seen the end of
its reader if one of them was empty or there was none left to make. -/
structure Tap.Asked (tap : Tap) (asked : List Read) : Prop where
  read_eq : tap.read.toList = asked.flatMap Read.bytes
  length_le : asked.length ≤ tap.pulls
  ended_iff : tap.ended = true ↔ .chunk [] ∈ asked ∨ asked.length < tap.pulls

/-- What holds between steps: the bytes read are those that the reader has handed out, the cache has
them from the base on, and every cursor reads from the tap. -/
structure Sharing.Consistent (s : Sharing) (t : Nat) (reads : List Read) : Prop where
  read : ∃ asked, reads = asked ++ s.tap.reads ∧ s.tap.Asked asked
  base_le : s.tap.base ≤ s.tap.upto
  cache : s.cache = s.tap.read.toList.drop s.tap.base
  live : ∀ c ∈ s.live, c.Reads t s.tap

structure Sharing.Moves (s : Sharing) (c : Cursor) (outcome : Outcome) (s' : Sharing) : Prop where
  written : outcome = .streamed → ∃ value,
    ⟨value, c.start, c.delivered ++ (s.filled s'.tap).drop (c.offset - s.tap.base)⟩ ∈ s'.live
  kept : outcome = .streamed → ∃ least ∈ s'.live, (∀ d ∈ s'.live, least.offset ≤ d.offset) ∧
    s'.cache.length = s'.tap.upto - least.offset ∧ s'.tap.kept = s'.cache.length
  /-- The reader is asked only for a cursor that has nothing ahead, and not after its end. -/
  asked : s'.tap.pulls = s.tap.pulls ∧ s'.tap.reads = s.tap.reads ∧ s'.tap.read = s.tap.read ∨
    s'.tap.pulls = s.tap.pulls + 1 ∧ c.offset = s.tap.upto ∧ s.tap.ended = false
  failed : ∀ stop, outcome = .failed stop → s'.live = s.live ∧ s'.tap.base = s.tap.base ∧
    s.cache <+: s'.cache
  /-- A cursor is at its end exactly when it has nothing ahead and the reader has reported its
  end. -/
  said : ∀ ended, outcome = .said ended →
    (ended = true ↔ c.offset = s'.tap.upto ∧ s'.tap.ended = true)

end PullScript
