import PullScript.Value.Inputs
import PullScript.World.Tap

namespace PullScript

/-- Where bytes are written to. A sink with a limit keeps the bytes up to it and refuses the
others. -/
structure Sink where
  written : Array UInt8 := #[]
  limit : Option Nat := none
deriving Repr

namespace Sink

/-- Writes as many bytes as there is room for, and says whether that was all of them. -/
def write (sink : Sink) (bytes : Bytes) : Sink × Bool :=
  match sink.limit with
  | none => ({ sink with written := sink.written ++ bytes }, true)
  | some limit =>
    let room := limit - sink.written.size
    ({ sink with written := sink.written ++ bytes.take room }, bytes.length ≤ room)

def bytes (sink : Sink) : Bytes :=
  sink.written.toList

end Sink

/-- A number whose reads are counted, and which may fail when it is read. -/
structure Meter where
  n : Float
  failure : Option String := none
  reads : Nat := 0

structure World where
  /-- Where streamed bytes go. -/
  out : Sink := {}
  taps : Array Tap := #[]
  sinks : Array Sink := #[]
  meters : Array Meter := #[]
  /-- The values held around what is being worked on, innermost first. -/
  around : List (List Value) := []

/-- The offsets at which the values held around read from a tap. -/
def World.offsetsAround (w : World) (tap : Nat) : List Nat :=
  Value.offsetsAt tap w.around.flatten

end PullScript
