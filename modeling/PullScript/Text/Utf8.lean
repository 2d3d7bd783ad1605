import PullScript.Bytes

namespace PullScript.Utf8

inductive Front where
  /-- A whole character. -/
  | char (c : Char)
  /-- So many bytes that belong to no character, whatever follows. -/
  | broken (size : Nat)
  /-- The beginning of a character whose other bytes are missing. -/
  | short
deriving DecidableEq, Repr

def isContinuation (b : UInt8) : Bool :=
  0x80 ≤ b && b ≤ 0xbf

def payload (b : UInt8) : Nat :=
  b.toNat % 64

/-- How many bytes a character that starts with `b` has, and the range its second byte must be
in. -/
def lead? (b : UInt8) : Option (Nat × UInt8 × UInt8) :=
  if 0xc2 ≤ b && b ≤ 0xdf then some (2, 0x80, 0xbf)
  else if b == 0xe0 then some (3, 0xa0, 0xbf)
  else if b == 0xed then some (3, 0x80, 0x9f)
  else if 0xe1 ≤ b && b ≤ 0xef then some (3, 0x80, 0xbf)
  else if b == 0xf0 then some (4, 0x90, 0xbf)
  else if 0xf1 ≤ b && b ≤ 0xf3 then some (4, 0x80, 0xbf)
  else if b == 0xf4 then some (4, 0x80, 0x8f)
  else none

/-- What stands at the front of a byte string. A broken front is as long as the longest part of it
that could have begun a character, and at least one byte. -/
def front : Bytes → Front
  | [] => .short
  | b :: rest =>
    if b < 0x80 then .char (Char.ofNat b.toNat)
    else match lead? b, rest with
      | none, _ => .broken 1
      | some _, [] => .short
      | some (size, low, high), b₁ :: rest₁ =>
        if !(low ≤ b₁ && b₁ ≤ high) then .broken 1
        else if size == 2 then .char (Char.ofNat ((b.toNat % 32) * 64 + payload b₁))
        else match rest₁ with
          | [] => .short
          | b₂ :: rest₂ =>
            if !isContinuation b₂ then .broken 2
            else if size == 3 then
              .char (Char.ofNat (((b.toNat % 16) * 64 + payload b₁) * 64 + payload b₂))
            else match rest₂ with
              | [] => .short
              | b₃ :: _ =>
                if !isContinuation b₃ then .broken 3
                else .char (Char.ofNat
                  ((((b.toNat % 8) * 64 + payload b₁) * 64 + payload b₂) * 64 + payload b₃))

/-- The character that stands for bytes that are no text. -/
def replacement : Char := '�'

/-- Decodes with `skip` bytes still belonging to the character or broken part before. Each maximal
broken part becomes one replacement character. -/
def lossyFrom : Nat → Bytes → List Char
  | _, [] => []
  | skip + 1, _ :: rest => lossyFrom skip rest
  | 0, b :: rest =>
    match front (b :: rest) with
    | .char c => c :: lossyFrom (c.utf8Size - 1) rest
    | .broken size => replacement :: lossyFrom (size - 1) rest
    | .short => [replacement]

/-- The text of a byte string, with a replacement character for each maximal part that is no
text. -/
def lossy (bytes : Bytes) : String :=
  String.ofList (lossyFrom 0 bytes)

/-- Decodes with `skip` bytes still belonging to the character before, or fails at the first byte
that belongs to none. -/
def decodeFrom? : Nat → Bytes → Option (List Char)
  | _, [] => some []
  | skip + 1, _ :: rest => decodeFrom? skip rest
  | 0, b :: rest =>
    match front (b :: rest) with
    | .char c => (decodeFrom? (c.utf8Size - 1) rest).map (c :: ·)
    | _ => none

/-- The text of a byte string, if all of it is text. -/
def decode? (bytes : Bytes) : Option String :=
  (decodeFrom? 0 bytes).map String.ofList

end PullScript.Utf8
