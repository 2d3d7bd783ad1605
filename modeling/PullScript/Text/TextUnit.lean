import PullScript.Text.Grapheme
import PullScript.Text.Utf8

namespace PullScript

inductive TextUnit where
  | codePoint
  | grapheme
deriving DecidableEq, Repr

structure TextUnit.Front where
  /-- The bytes of the unit, none when no whole character stands in front. -/
  size : Nat
  /-- Whether the unit stays the same whatever bytes follow. -/
  settled : Bool
deriving DecidableEq, Repr

namespace TextUnit

open PullScript.Grapheme

/-- Goes on with the cluster that `trail` describes, of which `size` bytes are known, where the
first `skip` bytes belong to its last character. The cluster is settled by a character that does not
belong to it and by a byte that belongs to no character. -/
def clusterFrom (trail : Trail) (size : Nat) : Nat → Bytes → Front
  | _, [] => ⟨size, false⟩
  | skip + 1, _ :: rest => clusterFrom trail size skip rest
  | 0, b :: rest =>
    match Utf8.front (b :: rest) with
    | .char c =>
      if trail.accepts (classOf c) then
        clusterFrom (trail.extend (classOf c)) (size + c.utf8Size) (c.utf8Size - 1) rest
      else ⟨size, true⟩
    | .broken _ => ⟨size, true⟩
    | .short => ⟨size, false⟩

def front (unit : TextUnit) : Bytes → Front
  | [] => ⟨0, false⟩
  | b :: rest =>
    match Utf8.front (b :: rest) with
    | .broken _ => ⟨0, true⟩
    | .short => ⟨0, false⟩
    | .char c =>
      match unit with
      | .codePoint => ⟨c.utf8Size, true⟩
      | .grapheme => clusterFrom (Trail.start (classOf c)) c.utf8Size (c.utf8Size - 1) rest

end TextUnit

end PullScript
