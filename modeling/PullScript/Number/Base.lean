import PullScript.Text.Blank
import PullScript.Text.Utf8
import PullScript.Number.Decimal

namespace PullScript.Number

/-- The integer part of a finite number's absolute value. -/
def Parts.wholePart (p : Parts) : Nat :=
  p.significand * Nat.pow 2 p.exponent.toNat / Nat.pow 2 (-p.exponent).toNat

/-- The integer part of a number in a base, with a minus sign when it is below zero. An infinite
number has no such text, and what is no number has the empty one. -/
def inBase? (base : Nat) (x : Float) : Option String :=
  match shapeOf x with
  | .notANumber => some ""
  | .infinite _ => none
  | .finite p =>
    let digits := String.ofList (Nat.toDigits base p.wholePart)
    some (if p.negative && p.wholePart != 0 then "-" ++ digits else digits)

/-- The value of a digit in a base, letters of either case standing for ten and above. -/
def digitIn? (base : Nat) (c : Char) : Option Nat :=
  (Bytes.hexDigit? c).filter (· < base)

def leadingDigits (base : Nat) : List Char → List Nat
  | [] => []
  | c :: rest =>
    match digitIn? base c with
    | some d => d :: leadingDigits base rest
    | none => []

/-- The number that a text starts with in a base, after any blanks and an optional sign. It is zero
when there are no digits, with the sign that was read. -/
def ofBase (base : Nat) (text : Bytes) : Float :=
  let chars := (Utf8.lossyFrom 0 text).dropWhile Text.isBlank
  let (sign, digits) : Float × List Char := match chars with
    | '-' :: rest => (-1.0, rest)
    | '+' :: rest => (1.0, rest)
    | rest => (1.0, rest)
  sign * (leadingDigits base digits).foldl (fun n d => n * Float.ofNat base + Float.ofNat d) 0.0

end PullScript.Number
