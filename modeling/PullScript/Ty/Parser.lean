import PullScript.Error
import PullScript.Ty.Token

namespace PullScript.Ty

/-- The token in front, the end of a text of `size` bytes behind the last one. -/
def peek (size : Nat) : List Token → Token
  | [] => ⟨.stop, [], size⟩
  | t :: _ => t

/-- The error of finding something else than what was wanted. -/
def expected {α : Type} (size : Nat) (wanted : Wanted) (ahead : List Token) : Except Error α :=
  let found := peek size ahead
  .error (.malformed (.expected wanted found.describe) found.span)

def expect (size : Nat) (kind : TokenKind) (wanted : Wanted) (ahead : List Token) :
    Except Error (List Token) :=
  match ahead with
  | t :: rest => if t.kind = kind then .ok rest else expected size wanted ahead
  | [] => expected size wanted ahead

def takeStar (ty : Ty) : List Token → Ty × List Token
  | t :: rest => if t.kind = .star then (ty.withEndless true, rest) else (ty, t :: rest)
  | [] => (ty, [])

mutual

/-- Reads a type from the tokens ahead. Each step down goes over a token, so that as much fuel as
there are tokens, and one more, is enough. -/
def readType (size : Nat) : Nat → List Token → Except Error (Ty × List Token)
  | 0, ahead => expected size .typeExpression ahead
  | fuel + 1, ahead => do
    let (part, ahead) ← readPart size fuel ahead
    let (ty, ahead) := takeStar part ahead
    match ahead with
    | t :: rest =>
      if t.kind = .arrow then
        let (result, ahead) ← readType size fuel rest
        return (.arrow ty result, ahead)
      else return (ty, ahead)
    | [] => return (ty, ahead)

def readPart (size : Nat) (fuel : Nat) (ahead : List Token) : Except Error (Ty × List Token) :=
  match ahead with
  | [] => expected size .typeExpression ahead
  | t :: rest =>
    match t.kind with
    | .name => .ok (.unknown (String.ofList t.text), rest)
    | .typeName =>
      if t.text = ['N', 'u', 'm'] then .ok (.num, rest)
      else if t.text = ['S', 't', 'r'] then .ok (.str false, rest)
      else expected size .typeName ahead
    | .openParen =>
      match fuel with
      | 0 => expected size .typeExpression rest
      | fuel + 1 => do
        let (first, ahead) ← readType size fuel rest
        let (others, ahead) ← readOthers size fuel ahead
        if others.isEmpty then
          let ahead ← expect size .closeParen .commaOrClosingParenthesis ahead
          return (first, ahead)
        else
          let ahead ← expect size .closeParen .closingParenthesis ahead
          return (.lst (first :: others) false true, ahead)
    | .openBracket =>
      match fuel with
      | 0 => expected size .typeExpression rest
      | fuel + 1 => do
        let (first, ahead) ← readType size fuel rest
        let (others, ahead) ← readOthers size fuel ahead
        let ahead ← expect size .closeBracket .closingBracket ahead
        return (listOf (first :: others) false, ahead)
    | _ => expected size .typeExpression ahead

def readOthers (size : Nat) : Nat → List Token → Except Error (List Ty × List Token)
  | 0, ahead => .ok ([], ahead)
  | fuel + 1, ahead =>
    match ahead with
    | t :: rest =>
      if t.kind = .comma then do
        let (ty, ahead) ← readType size fuel rest
        let (others, ahead) ← readOthers size fuel ahead
        return (ty :: others, ahead)
      else .ok ([], ahead)
    | [] => .ok ([], ahead)

end

/-- The name in front of a type, and the tokens after it. -/
def takeName : List Token → Option String × List Token
  | t :: u :: rest =>
    if t.kind = .name ∧ u.kind = .bind then (some (String.ofList t.text), rest)
    else (none, t :: u :: rest)
  | ahead => (none, ahead)

/-- Reads a type's text, with an optional name in front. -/
def parseNamed (text : String) : Except Error (Option String × Ty) := do
  let size := text.utf8ByteSize
  let all := tokens text
  let (name, ahead) := takeName all
  let (ty, ahead) ← readType size (2 * all.length + 2) ahead
  match ahead with
  | [] => return (name, ty)
  | _ :: _ => expected size .endOfType ahead

/-- Reads a type's text. A name in front is allowed and dropped. -/
def parse (text : String) : Except Error Ty :=
  (parseNamed text).map (·.2)

end PullScript.Ty
