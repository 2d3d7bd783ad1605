namespace PullScript

abbrev Bytes := List UInt8

namespace Bytes

def ofString (s : String) : Bytes :=
  s.toList.flatMap String.utf8EncodeChar

/-- Where `needle` first occurs in a byte string, as the number of bytes before it. -/
def find? (needle : Bytes) : Bytes → Option Nat
  | [] => if needle.isEmpty then some 0 else none
  | b :: rest =>
    if needle.isPrefixOf (b :: rest) then some 0 else (find? needle rest).map (· + 1)

/-- Whether `needle` occurs anywhere in a byte string. -/
def occursIn (needle text : Bytes) : Bool :=
  (find? needle text).isSome

/-- The last `n` bytes, or all of them when there are fewer. -/
def lastBytes (n : Nat) (text : Bytes) : Bytes :=
  text.drop (text.length - n)

/-- Space, tab, line feed, form feed and carriage return; the vertical tab is not among them. -/
def isBlank (b : UInt8) : Bool :=
  b == 0x20 || b == 0x09 || b == 0x0a || b == 0x0c || b == 0x0d

def isDigit (b : UInt8) : Bool :=
  0x30 ≤ b && b ≤ 0x39

/-- Two lowercase hexadecimal digits for each byte. -/
def toHex (text : Bytes) : String :=
  String.ofList (text.flatMap fun b => [Nat.digitChar (b.toNat / 16), Nat.digitChar (b.toNat % 16)])

/-- The value of one hexadecimal digit of either case. -/
def hexDigit? (c : Char) : Option Nat :=
  if '0' ≤ c ∧ c ≤ '9' then some (c.toNat - '0'.toNat)
  else if 'a' ≤ c ∧ c ≤ 'f' then some (c.toNat - 'a'.toNat + 10)
  else if 'A' ≤ c ∧ c ≤ 'F' then some (c.toNat - 'A'.toNat + 10)
  else none

/-- The byte string that pairs of hexadecimal digits stand for. -/
def ofHexDigits? : List Char → Option Bytes
  | [] => some []
  | [_] => none
  | high :: low :: rest => do
    let h ← hexDigit? high
    let l ← hexDigit? low
    let others ← ofHexDigits? rest
    return UInt8.ofNat (16 * h + l) :: others

end Bytes

end PullScript
