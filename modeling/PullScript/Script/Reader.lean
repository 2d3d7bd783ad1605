import PullScript.Script.Tree

namespace PullScript.Script

/-- The token in front, the end of the script behind the last one. -/
def peek (stop : Span) : List Token → Token
  | [] => ⟨.stop, stop⟩
  | t :: _ => t

/-- Something else than what was wanted is in front. -/
def unexpected (stop : Span) (wanted : Wanted) (ahead : List Token) : Break :=
  let found := peek stop ahead
  ⟨.expected wanted found.kind.describe, found.span⟩

def TokenKind.endsElement : TokenKind → Bool
  | comma | semicolon | closeBrace | closeBracket | stop => true
  | _ => false

mutual

/-- Reads an atom. Each step down goes over a token or to a smaller part of the grammar, so that
fuel for five steps a token, and five more, is enough. -/
def readAtom (stop : Span) : Nat → List Token → Atom × List Token
  | 0, ahead => (.broken (unexpected stop .atom ahead), [])
  | fuel + 1, ahead =>
    match ahead with
    | ⟨.name text, span⟩ :: rest => (.name text span, rest)
    | ⟨.number n, _⟩ :: rest => (.number n, rest)
    | ⟨.text content, _⟩ :: rest => (.text content, rest)
    | ⟨.openBrace, _⟩ :: rest =>
      let (items, ahead) := readItems stop fuel rest
      (.list items, ahead)
    | ⟨.openBracket, span⟩ :: ⟨.closeBracket, close⟩ :: _ =>
      (.broken ⟨.emptySubScript, ⟨span.offset, close.stop - span.offset⟩⟩, [])
    | ⟨.openBracket, _⟩ :: rest =>
      let (first, others, ahead) := readElements stop fuel rest
      match ahead with
      | ⟨.closeBracket, _⟩ :: rest => (.subScript first others, rest)
      | _ => (.unclosed first others (unexpected stop .commaOrEndOfSubScript ahead), [])
    | ⟨.percent, span⟩ :: ⟨.operator op, place⟩ :: rest => (.flippedOperator op place span, rest)
    | ⟨.percent, span⟩ :: rest =>
      let (arg, ahead) := readAtom stop fuel rest
      (.flipped arg span, ahead)
    | ⟨.operator op, span⟩ :: rest =>
      let (arg, ahead) := readAtom stop fuel rest
      (.operator op arg span, ahead)
    | _ => (.broken (unexpected stop .atom ahead), [])

/-- Reads the items of a list up to and with its closing brace. -/
def readItems (stop : Span) : Nat → List Token → List Element × List Token
  | 0, ahead => ([.broken (unexpected stop .atom ahead)], [])
  | fuel + 1, ahead =>
    match ahead with
    | ⟨.closeBrace, _⟩ :: rest => ([], rest)
    | _ =>
      let (item, ahead) := readElement stop fuel ahead
      match ahead with
      | ⟨.comma, _⟩ :: rest =>
        let (items, ahead) := readItems stop fuel rest
        (item :: items, ahead)
      | ⟨.closeBrace, _⟩ :: rest => ([item], rest)
      | _ => ([item, .broken (unexpected stop .commaOrClosingBrace ahead)], [])

def readHead (stop : Span) : Nat → List Token → Head × List Token
  | 0, ahead => (.atom (.broken (unexpected stop .atom ahead)), [])
  | fuel + 1, ahead =>
    match ahead with
    | ⟨.definition, _⟩ :: ⟨.name name, span⟩ :: ⟨.text doc, _⟩ :: rest =>
      let (value, ahead) := readAtom stop fuel rest
      (.definition name span doc value, ahead)
    | ⟨.definition, _⟩ :: ⟨.name name, _⟩ :: rest =>
      (.atom (.broken (unexpected stop (.docstring name) rest)), [])
    | ⟨.definition, _⟩ :: rest => (.atom (.broken (unexpected stop .name rest)), [])
    | _ =>
      let (value, ahead) := readAtom stop fuel ahead
      (.atom value, ahead)

def readArgs (stop : Span) : Nat → List Token → List Atom × List Token
  | 0, ahead => ([], ahead)
  | fuel + 1, ahead =>
    if (peek stop ahead).kind.endsElement then ([], ahead)
    else
      let (arg, ahead) := readAtom stop fuel ahead
      let (args, ahead) := readArgs stop fuel ahead
      (arg :: args, ahead)

def readElement (stop : Span) : Nat → List Token → Element × List Token
  | 0, ahead => (.broken (unexpected stop .atom ahead), [])
  | fuel + 1, ahead =>
    let (head, ahead) := readHead stop fuel ahead
    let (args, ahead) := readArgs stop fuel ahead
    match ahead with
    | ⟨.semicolon, _⟩ :: rest =>
      let (next, ahead) := readElement stop fuel rest
      (.andThen head args next, ahead)
    | _ => (.apply head args, ahead)

def readElements (stop : Span) : Nat → List Token → Element × List Element × List Token
  | 0, ahead => (.broken (unexpected stop .atom ahead), [], [])
  | fuel + 1, ahead =>
    let (first, ahead) := readElement stop fuel ahead
    match ahead with
    | ⟨.comma, _⟩ :: rest =>
      let (second, others, ahead) := readElements stop fuel rest
      (first, second :: others, ahead)
    | _ => (first, [], ahead)

end

def beforeStop (tokens : List Token) : List Token :=
  tokens.takeWhile fun t => match t.kind with
    | .stop => false
    | _ => true

/-- The place of the first end, which is just behind the last token if there is none. -/
def stopSpan (tokens : List Token) : Span :=
  match tokens.drop (beforeStop tokens).length with
  | t :: _ => t.span
  | [] => ⟨tokens.getLast?.elim 0 (·.span.stop), 0⟩

/-- What is wrong behind the elements of a script. -/
def breakBehind (stop : Span) : List Token → Option Break
  | [] => none
  | ⟨.closeBracket, span⟩ :: _ => some ⟨.unmatchedBracket, span⟩
  | ahead => some (unexpected stop .commaOrEndOfScript ahead)

def ofTokens (tokens : List Token) : Script :=
  let stop := stopSpan tokens
  let ahead := beforeStop tokens
  let (first, rest, behind) := readElements stop (5 * ahead.length + 5) ahead
  ⟨first, rest, breakBehind stop behind⟩

/-- The tree of a script, unless it has no tokens. -/
def ofSource (source : String) : Except Error Script :=
  (tokens source).map ofTokens

end PullScript.Script
