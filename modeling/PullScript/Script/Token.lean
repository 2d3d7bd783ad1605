import PullScript.Error
import PullScript.Text.Blank
import PullScript.Text.Quoted

namespace PullScript.Script

inductive Operator where
  | plus
  | minus
  | dot
  | slash
  | underscore
deriving DecidableEq, Repr

def Operator.builtin : Operator → String
  | plus => "add"
  | minus => "sub"
  | dot => "mul"
  | slash => "div"
  | underscore => "index"

def Operator.symbol : Operator → Char
  | plus => '+'
  | minus => '-'
  | dot => '.'
  | slash => '/'
  | underscore => '_'

inductive TokenKind where
  | name (text : String)
  | number (n : Float)
  | text (content : String)
  /-- The name that starts a definition. -/
  | definition
  | comma
  | semicolon
  | openBracket
  | closeBracket
  | openBrace
  | closeBrace
  | operator (op : Operator)
  | percent
  /-- The end of the script. -/
  | stop
deriving Repr

structure Token where
  kind : TokenKind
  span : Span
deriving Repr

def describeSymbol (c : Char) : String :=
  "token '" ++ String.singleton c ++ "'"

def TokenKind.describe : TokenKind → String
  | name word => "name '" ++ word ++ "'"
  | number n => "literal number of value " ++ Number.toText n
  | text content => "literal string " ++ Text.quoted content
  | definition => "special name \"def\""
  | comma => describeSymbol ','
  | semicolon => describeSymbol ';'
  | openBracket => describeSymbol '['
  | closeBracket => describeSymbol ']'
  | openBrace => describeSymbol '\x7b'
  | closeBrace => describeSymbol '\x7d'
  | operator op => describeSymbol op.symbol
  | percent => describeSymbol '%'
  | stop => "end of script"

def symbol? : Char → Option TokenKind
  | ',' => some .comma
  | ';' => some .semicolon
  | '[' => some .openBracket
  | ']' => some .closeBracket
  | '\x7b' => some .openBrace
  | '\x7d' => some .closeBrace
  | '+' => some (.operator .plus)
  | '-' => some (.operator .minus)
  | '.' => some (.operator .dot)
  | '/' => some (.operator .slash)
  | '_' => some (.operator .underscore)
  | '%' => some .percent
  | _ => none

/-- The control character that a letter stands for after a backslash. -/
def escaped? : Char → Option Char
  | 'a' => some '\x07'
  | 'b' => some '\x08'
  | 't' => some '\t'
  | 'n' => some '\n'
  | 'v' => some '\x0b'
  | 'f' => some '\x0c'
  | 'r' => some '\r'
  | 'e' => some '\x1b'
  | _ => none

/-- The content of a text behind its opening colon, and its length in characters with the closing
colon. Two colons stand for one; a backslash that starts no escape stands for itself. -/
def readText : List Char → Option (List Char × Nat)
  | [] => none
  | ':' :: ':' :: rest => (readText rest).map fun (content, length) => (':' :: content, length + 2)
  | ':' :: _ => some ([], 1)
  | '\\' :: c :: rest =>
    match escaped? c with
    | some control =>
      (readText rest).map fun (content, length) => (control :: content, length + 2)
    | none => (readText (c :: rest)).map fun (content, length) => ('\\' :: content, length + 1)
  | c :: rest => (readText rest).map fun (content, length) => (c :: content, length + 1)

/-- The digits behind a point that belongs to a number: one that has a digit behind it. -/
def readFraction : List Char → List Char
  | '.' :: rest => rest.takeWhile Char.isDigit
  | _ => []

/-- The number at the front of digits, and its length in characters. -/
def readNumber (chars : List Char) : TokenKind × Nat :=
  let whole := chars.takeWhile Char.isDigit
  let fraction := readFraction (chars.dropWhile Char.isDigit)
  let length := if fraction.isEmpty then whole.length else whole.length + 1 + fraction.length
  (.number (Number.ofDigits whole fraction), length)

/-- The name at the front of small letters, and its length in characters. -/
def readName (chars : List Char) : TokenKind × Nat :=
  let letters := chars.takeWhile Char.isLower
  let name := String.ofList letters
  (if name = "def" then .definition else .name name, letters.length)

/-- The token at the front of `c :: rest`, where `c` is no blank and starts no comment, with its
length in characters; or what is wrong there, with the number of bytes that are. -/
def readToken (c : Char) (rest : List Char) : Except (Malformed × Nat) (TokenKind × Nat) :=
  if c = ':' then
    match readText rest with
    | some (content, length) => .ok (.text (String.ofList content), length + 1)
    | none => .error (.unclosedText, byteCount (c :: rest))
  else if c.isDigit then .ok (readNumber (c :: rest))
  else if c.isLower then .ok (readName (c :: rest))
  else
    match symbol? c with
    | some kind => .ok (kind, 1)
    | none => .error (.strayCharacter c, c.utf8Size)

/-- The tokens of the characters from byte `offset` on, where the first `skip` characters belong to
the token or comment before. -/
def tokensFrom (offset : Nat) : Nat → List Char → Except Error (List Token)
  | _, [] => .ok [⟨.stop, ⟨offset, 0⟩⟩]
  | skip + 1, c :: rest => tokensFrom (offset + c.utf8Size) skip rest
  | 0, c :: rest =>
    let next := offset + c.utf8Size
    if Text.isBlank c then tokensFrom next 0 rest
    else if c = '#' then tokensFrom next (rest.takeWhile (· ≠ '\n')).length rest
    else
      match readToken c rest with
      | .ok (kind, length) => do
        let others ← tokensFrom next (length - 1) rest
        return ⟨kind, ⟨offset, byteCount ((c :: rest).take length)⟩⟩ :: others
      | .error (cause, size) => .error (.malformed cause ⟨offset, size⟩)

/-- The tokens of a script, with its end as the last one. -/
def tokens (source : String) : Except Error (List Token) :=
  tokensFrom 0 0 source.toList

end PullScript.Script
