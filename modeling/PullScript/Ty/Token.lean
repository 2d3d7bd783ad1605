import PullScript.Span
import PullScript.Text.Blank

namespace PullScript.Ty

inductive TokenKind where
  /-- `::` -/
  | bind
  | openParen
  | closeParen
  | openBracket
  | closeBracket
  /-- `->` -/
  | arrow
  | comma
  | star
  /-- A lowercase letter and the lowercase letters after it. -/
  | name
  /-- An uppercase letter and the lowercase letters after it. -/
  | typeName
  /-- A character of no other token. -/
  | stray
  /-- The end of the text. -/
  | stop
deriving DecidableEq, Repr

structure Token where
  kind : TokenKind
  text : List Char
  offset : Nat
deriving DecidableEq, Repr

namespace Token

def span (t : Token) : Span :=
  ⟨t.offset, max (byteCount t.text) 1⟩

def describe (t : Token) : String :=
  let quoted := "'" ++ String.ofList t.text ++ "'"
  match t.kind with
  | .stop => "end of type"
  | .name => "name " ++ quoted
  | .typeName => "type name " ++ quoted
  | _ => "token " ++ quoted

end Token

def isLower (c : Char) : Bool :=
  'a' ≤ c && c ≤ 'z'

def isUpper (c : Char) : Bool :=
  'A' ≤ c && c ≤ 'Z'

/-- The kind of a token that is a single character, whatever follows it. -/
def singleKind (c : Char) : TokenKind :=
  match c with
  | '(' => .openParen
  | ')' => .closeParen
  | '[' => .openBracket
  | ']' => .closeBracket
  | ',' => .comma
  | '*' => .star
  | _ => .stray

/-- The kind and the length in characters of the token at the front of `c :: rest`, where `c` is no
blank. -/
def frontToken (c : Char) (rest : List Char) : TokenKind × Nat :=
  if isLower c then (.name, 1 + (rest.takeWhile isLower).length)
  else if isUpper c then (.typeName, 1 + (rest.takeWhile isLower).length)
  else match c, rest with
    | ':', ':' :: _ => (.bind, 2)
    | '-', '>' :: _ => (.arrow, 2)
    | _, _ => (singleKind c, 1)

/-- The tokens of the characters from byte `offset` on, where the first `skip` characters belong to
the token before. -/
def tokensFrom (offset : Nat) : Nat → List Char → List Token
  | _, [] => []
  | skip + 1, c :: rest => tokensFrom (offset + c.utf8Size) skip rest
  | 0, c :: rest =>
    if Text.isBlank c then tokensFrom (offset + c.utf8Size) 0 rest
    else
      let (kind, length) := frontToken c rest
      ⟨kind, (c :: rest).take length, offset⟩ :: tokensFrom (offset + c.utf8Size) (length - 1) rest

def tokens (text : String) : List Token :=
  tokensFrom 0 0 text.toList

end PullScript.Ty
