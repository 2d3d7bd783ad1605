import PullScript.Eval.Bound
import PullScript.Number.Base
import PullScript.Number.Leading

namespace PullScript

open Act

def truth (b : Bool) : Float :=
  if b then 1 else 0

/-- Whether `needle`, which is not empty, occurs in what is left of a text. Of what was streamed,
only so much is kept that an occurrence can still begin in it. -/
def searchFor (p : Puller) (needle : Bytes) : Act Value Bool := do
  requireKind .str
  loop (fun window => do
    if ← p.textEnded then return .inr false
    let window := window ++ (← gathered p.stream)
    if Bytes.occursIn needle window then return .inr true
    return .inl (Bytes.lastBytes (needle.length - 1) window)) p.fuel []

def Calculation.run (p : Puller) : Calculation → Act Bound Float
  | abs => return (← Bound.on 0 p.number).abs
  | add => do
    let a ← Bound.on 0 p.number
    let b ← Bound.on 1 p.number
    return a + b
  | sub => do
    let a ← Bound.on 0 p.number
    let b ← Bound.on 1 p.number
    return a - b
  | mul => do
    let a ← Bound.on 0 p.number
    let b ← Bound.on 1 p.number
    return a * b
  | div => do
    let a ← Bound.on 0 p.number
    let b ← Bound.on 1 p.number
    return a / b
  | leadingNumber => return Number.ofLeading (← Bound.on 0 (readWhile p Number.mayGoOn))
  | fromBase base => return Number.ofBase base (← Bound.on 0 (readAll p))
  | codePoint => do
    -- a code point has at most four bytes
    let bytes ← Bound.on 0 (readWhile p fun soFar => soFar.length < 4)
    match Utf8.lossyFrom 0 bytes with
    | [] => return 0
    | c :: _ => return Float.ofNat c.toNat
  | contains => do
    let needle ← Bound.on 0 (readAll p)
    if needle.isEmpty then return 1
    return truth (← Bound.on 1 (searchFor p needle))
  | startsWith => do
    let needle ← Bound.on 0 (readAll p)
    let front ← Bound.on 1 (readWhile p fun soFar => soFar.length < needle.length)
    return truth (needle.isPrefixOf front)
  | endsWith => do
    let needle ← Bound.on 0 (readAll p)
    let text ← Bound.on 1 (readAll p)
    return truth (needle.isSuffixOf text)

/-- The character with a given number as its code point, fractions cut off. -/
def characterAt? (n : Float) : Option Char :=
  let code := n.toUInt32.toNat
  if code.isValidChar then some (Char.ofNat code) else none

def Rendering.run (p : Puller) : Rendering → Act Bound Bytes
  | decimal => return Bytes.ofString (Number.toText (← Bound.on 0 p.number))
  | inBase base => do
    let n ← Bound.on 0 p.number
    return Bytes.ofString (← ofOption (Number.inBase? base n))
  | character => do
    let n ← Bound.on 0 p.number
    match characterAt? n with
    | some c => if 0 ≤ n then return String.utf8EncodeChar c else fail (.runtime (.badCodePoint n))
    | none => fail (.runtime (.badCodePoint n))

/-- The bytes that a number stands for. A number that is no code point stands for the replacement
character. -/
def Encoding.bytes (n : Float) : Encoding → Bytes
  | byte => [n.toUInt8]
  | codePoint => String.utf8EncodeChar ((characterAt? n).getD Utf8.replacement)

end PullScript
