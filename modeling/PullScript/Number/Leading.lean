import PullScript.Bytes
import PullScript.Number.Decimal

namespace PullScript.Number

def isNumberByte (b : UInt8) : Bool :=
  Bytes.isDigit b || b == 0x2d || b == 0x2b || b == 0x2e

/-- Whether a text, blanks in front apart, has only bytes that can stand in a decimal number. -/
def mayGoOn (text : Bytes) : Bool :=
  (text.dropWhile Bytes.isBlank).all isNumberByte

def digitChars (digits : Bytes) : List Char :=
  digits.map fun b => Char.ofNat b.toNat

/-- The number that a text starts with, after any blanks: a sign, then digits with an optional point
and further digits, or a point and digits. Zero when there is none. -/
def ofLeading (text : Bytes) : Float :=
  let (negative, unsigned) := match text.dropWhile Bytes.isBlank with
    | 0x2d :: rest => (true, rest)
    | 0x2b :: rest => (false, rest)
    | rest => (false, rest)
  let whole := unsigned.takeWhile Bytes.isDigit
  let fraction := match unsigned.dropWhile Bytes.isDigit with
    | 0x2e :: rest => rest.takeWhile Bytes.isDigit
    | _ => []
  if whole.isEmpty && fraction.isEmpty then 0.0
  else
    let x := ofDigits (digitChars whole) (digitChars fraction)
    if negative then -x else x

end PullScript.Number
