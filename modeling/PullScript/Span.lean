namespace PullScript

def byteCount : List Char → Nat
  | [] => 0
  | c :: rest => c.utf8Size + byteCount rest

structure Span where
  offset : Nat
  len : Nat
deriving DecidableEq, Inhabited, Repr

namespace Span

def stop (span : Span) : Nat :=
  span.offset + span.len

/-- Walks over the characters of the first `left` bytes from a place given by line and column. -/
def place (line column : Nat) : Nat → List Char → Nat × Nat
  | _, [] => (line, column)
  | left, c :: rest =>
    if left = 0 then (line, column)
    else if c = '\n' then place (line + 1) 1 (left - c.utf8Size) rest
    else place line (column + 1) (left - c.utf8Size) rest

/-- The line and column of the start of a range, both counted from one, columns in characters. An
offset behind the end stands for the end. -/
def lineColumn (span : Span) (source : String) : Nat × Nat :=
  place 1 1 span.offset source.toList

/-- The characters from the first `skip` bytes of a text on, if a character starts there. -/
def dropBytes? : Nat → List Char → Option (List Char)
  | 0, chars => some chars
  | _ + 1, [] => none
  | skip + 1, c :: rest =>
    if c.utf8Size ≤ skip + 1 then dropBytes? (skip + 1 - c.utf8Size) rest else none

/-- The characters in the first `size` bytes of a text, if a character ends there. -/
def takeBytes? : Nat → List Char → Option (List Char)
  | 0, _ => some []
  | _ + 1, [] => none
  | size + 1, c :: rest =>
    if c.utf8Size ≤ size + 1 then (takeBytes? (size + 1 - c.utf8Size) rest).map (c :: ·) else none

/-- The characters in a range, if it lies in the text and has whole characters. -/
def slice? (span : Span) (source : String) : Option (List Char) :=
  (dropBytes? span.offset source.toList).bind (takeBytes? span.len)

end Span

end PullScript
