namespace PullScript.Number

/-- A finite number taken apart: its absolute value is `significand * 2 ^ exponent`. -/
structure Parts where
  negative : Bool
  significand : Nat
  exponent : Int
  /-- The next smaller number is only half as far away as the next larger one. -/
  narrowBelow : Bool

inductive Shape where
  | notANumber
  | infinite (negative : Bool)
  | finite (parts : Parts)

/-- Reads the sign, exponent and fraction fields of a number. -/
def shapeOf (x : Float) : Shape :=
  let bits := x.toBits.toNat
  let negative := bits / Nat.pow 2 63 == 1
  let field : Nat := bits / Nat.pow 2 52 % Nat.pow 2 11
  let fraction : Nat := bits % Nat.pow 2 52
  if field == 2047 then
    if fraction == 0 then .infinite negative else .notANumber
  else if field == 0 then .finite ⟨negative, fraction, -1074, false⟩
  else
    .finite ⟨negative, fraction + Nat.pow 2 52, (field : Int) - 1075, fraction == 0 && field != 1⟩

structure Decimal where
  digits : Nat
  exponent : Int
deriving DecidableEq, Repr

/-- The reals that read as one number: a fraction `value / scale` with the bounds of its
neighbourhood over the same denominator, which belong to it when `closed` holds. -/
structure Interval where
  low : Nat
  value : Nat
  high : Nat
  scale : Nat
  closed : Bool

/-- The neighbourhood of a finite number. Its ends lie half way to the neighbours and belong to it
when the significand is even. -/
def Parts.interval (p : Parts) : Interval :=
  let up := Nat.pow 2 (p.exponent - 2).toNat
  let low := 4 * p.significand - (if p.narrowBelow then 1 else 2)
  { low := low * up
    value := 4 * p.significand * up
    high := (4 * p.significand + 2) * up
    scale := Nat.pow 2 (2 - p.exponent).toNat
    closed := p.significand % 2 == 0 }

/-- The largest `e` with `10 ^ e ≤ value / scale`, looked for downwards from `fuel` places before
the point to as many behind it. -/
def leadingPlace (value scale : Nat) : Nat → Int → Int
  | 0, e => e
  | fuel + 1, e =>
    if scale * Nat.pow 10 e.toNat ≤ value * Nat.pow 10 (-e).toNat then e
    else leadingPlace value scale fuel (e - 1)

/-- The better of the two neighbours of an interval's value among the multiples of `10 ^ place`, if
one of them lies in the interval. Of two, the nearer is better, and the upper one when they are
equally near. -/
def Interval.onGrid? (i : Interval) (place : Int) : Option Decimal :=
  let down := Nat.pow 10 (-place).toNat
  let step := i.scale * Nat.pow 10 place.toNat
  let below := i.value * down / step
  let inside (n : Nat) : Bool :=
    if i.closed then i.low * down ≤ n * step && n * step ≤ i.high * down
    else i.low * down < n * step && n * step < i.high * down
  let upperNearer := (below + 1) * step - i.value * down ≤ i.value * down - below * step
  match inside below, inside (below + 1) with
  | false, false => none
  | true, false => some ⟨below, place⟩
  | false, true => some ⟨below + 1, place⟩
  | true, true => some ⟨if upperNearer then below + 1 else below, place⟩

/-- The first grid, from `place` downwards, that has a multiple in the interval. -/
def Interval.firstOnGrid (i : Interval) : Nat → Int → Decimal
  | 0, place => ⟨i.value * Nat.pow 10 (-place).toNat / (i.scale * Nat.pow 10 place.toNat), place⟩
  | fuel + 1, place =>
    match i.onGrid? place with
    | some d => d
    | none => i.firstOnGrid fuel (place - 1)

/-- The shortest decimal that reads back as a finite number other than zero. Seventeen digits always
do. -/
def Parts.shortest (p : Parts) : Decimal :=
  let i := p.interval
  let top : Int := ((p.significand.log2 : Int) + p.exponent) * 30103 / 100000 + 1
  i.firstOnGrid 17 (leadingPlace i.value i.scale 4 top)

/-- Writes a decimal without exponent: the digits, zeros up to the point, or a point with zeros
behind it. -/
def Decimal.positional (d : Decimal) : String :=
  let digits := Nat.toDigits 10 d.digits
  if 0 ≤ d.exponent then
    String.ofList (digits ++ List.replicate d.exponent.toNat '0')
  else
    let places := (-d.exponent).toNat
    let padded := List.replicate (places + 1 - digits.length) '0' ++ digits
    let whole := padded.take (padded.length - places)
    String.ofList (whole ++ '.' :: padded.drop (padded.length - places))

/-- The decimal without zeros at the end of its digits; at most `fuel` of them are taken off. -/
def Decimal.trimmed (d : Decimal) : Nat → Decimal
  | 0 => d
  | fuel + 1 =>
    if d.digits % 10 == 0 && d.digits != 0 then
      (⟨d.digits / 10, d.exponent + 1⟩ : Decimal).trimmed fuel
    else d

/-- The text of a number: the shortest decimal that reads back, positional, a minus sign for
negative numbers and the negative zero, and a word for what is no finite number. -/
def toText (x : Float) : String :=
  match shapeOf x with
  | .notANumber => "NaN"
  | .infinite negative => if negative then "-inf" else "inf"
  | .finite p =>
    let magnitude := if p.significand == 0 then "0" else (p.shortest.trimmed 20).positional
    if p.negative then "-" ++ magnitude else magnitude

def digitsValue (digits : List Char) : Nat :=
  digits.foldl (fun n c => 10 * n + (c.toNat - '0'.toNat)) 0

/-- The number nearest to `whole.fraction`, both given as digits. -/
def ofDigits (whole fraction : List Char) : Float :=
  Float.ofScientific (digitsValue (whole ++ fraction)) true fraction.length

/-- The number nearest to `whole.fraction * 10 ^ exponent`. -/
def ofDigitsExponent (whole fraction : List Char) (exponent : Int) : Float :=
  let places := (fraction.length : Int) - exponent
  Float.ofScientific (digitsValue (whole ++ fraction)) (0 ≤ places) places.natAbs

/-- Reads digits with optional sign, fraction and exponent, or the word for what is no finite
number. -/
def ofText? (text : String) : Option Float :=
  match text with
  | "NaN" => some (0.0 / 0.0)
  | "inf" => some (1.0 / 0.0)
  | "-inf" => some (-1.0 / 0.0)
  | _ =>
    let (negative, unsigned) := match text.toList with
      | '-' :: rest => (true, rest)
      | '+' :: rest => (false, rest)
      | rest => (false, rest)
    let whole := unsigned.takeWhile Char.isDigit
    let afterWhole := unsigned.dropWhile Char.isDigit
    let (fraction, afterFraction) := match afterWhole with
      | '.' :: rest => (rest.takeWhile Char.isDigit, rest.dropWhile Char.isDigit)
      | rest => ([], rest)
    let exponent? : Option Int := match afterFraction with
      | [] => some 0
      | e :: rest =>
        if e == 'e' || e == 'E' then
          let (down, places) := match rest with
            | '-' :: digits => (true, digits)
            | '+' :: digits => (false, digits)
            | digits => (false, digits)
          if places.isEmpty || !places.all Char.isDigit then none
          else some (if down then -(digitsValue places : Int) else digitsValue places)
        else none
    if whole.isEmpty && fraction.isEmpty then none
    else exponent?.map fun exponent =>
      let x := ofDigitsExponent whole fraction exponent
      if negative then -x else x

end PullScript.Number
