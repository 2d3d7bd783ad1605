import PullScript.Bytes

namespace PullScript

/-- What the reader hands out when it is asked: a chunk, or a failure with a message. An empty chunk
is the end. -/
inductive Read where
  | chunk (bytes : Bytes)
  | failure (message : String)
deriving DecidableEq, Repr

structure Tap where
  /-- What the reader still has to hand out; then it is at its end for ever. -/
  reads : List Read
  /-- The bytes read so far. -/
  read : Array UInt8 := #[]
  /-- How many of them, from the first on, no copy has ahead any more. -/
  base : Nat := 0
  /-- The reader has reported its end. -/
  ended : Bool := false
  /-- How often the reader was asked. -/
  pulls : Nat := 0
deriving Repr

namespace Tap

def upto (tap : Tap) : Nat :=
  tap.read.size

def after (tap : Tap) (offset : Nat) : Bytes :=
  (tap.read.extract offset tap.read.size).toList

def kept (tap : Tap) : Nat :=
  tap.read.size - tap.base

/-- Asks the reader once, unless it has reported its end, and gives the message of a failed read. -/
def fill (tap : Tap) : Tap × Option String :=
  if tap.ended then (tap, none)
  else
    let pulls := tap.pulls + 1
    match tap.reads with
    | [] => ({ tap with pulls, ended := true }, none)
    | .failure message :: reads => ({ tap with pulls, reads }, some message)
    | .chunk [] :: reads => ({ tap with pulls, reads, ended := true }, none)
    | .chunk bytes :: reads => ({ tap with pulls, reads, read := tap.read ++ bytes }, none)

/-- Asks the reader if a copy at `offset` has seen everything read so far. -/
def fillFor (tap : Tap) (offset : Nat) : Tap × Option String :=
  if tap.upto ≤ offset then tap.fill else (tap, none)

/-- Whether a copy at `offset`, for which the reader was asked if need be, is at the end. -/
def atEnd (tap : Tap) (offset : Nat) : Bool :=
  tap.upto ≤ offset && tap.ended

/-- Keeps no more than the bytes from `oldest` on, the least offset of a copy that is still
there. -/
def trim (tap : Tap) (oldest : Nat) : Tap :=
  { tap with base := max tap.base oldest }

end Tap

end PullScript
