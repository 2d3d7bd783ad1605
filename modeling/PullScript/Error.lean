import PullScript.Number.Decimal
import PullScript.Span
import PullScript.Ty.Printer

namespace PullScript

inductive Wanted where
  | typeName
  | typeExpression
  | closingParenthesis
  | commaOrClosingParenthesis
  | closingBracket
  | endOfType
  | name
  | docstring (definition : String)
  | atom
  | commaOrEndOfScript
  | commaOrClosingBrace
  | commaOrEndOfSubScript
deriving DecidableEq, Repr

def Wanted.text : Wanted → String
  | .typeName => "type name"
  | .typeExpression => "type expression"
  | .closingParenthesis => "matching token ')'"
  | .commaOrClosingParenthesis => "token ',' or matching token ')'"
  | .closingBracket => "matching token ']'"
  | .endOfType => "end of type"
  | .name => "name"
  | .docstring definition => "docstring for '" ++ definition ++ "'"
  | .atom => "atom"
  | .commaOrEndOfScript => "',' or end of script"
  | .commaOrClosingBrace => "',' or '\x7d'"
  | .commaOrEndOfSubScript => "',' or ']'"

inductive Malformed where
  /-- Something else than what was wanted was found, described by `found`. -/
  | expected (wanted : Wanted) (found : String)
  /-- A character that starts no token. -/
  | strayCharacter (c : Char)
  | unclosedText
  | unmatchedBracket
  | emptySubScript
  | unknownName (name : String)
  | knownName (name : String)
deriving DecidableEq, Repr

def Malformed.message : Malformed → String
  | .expected wanted found => "expected " ++ wanted.text ++ " but got " ++ found ++ " instead"
  | .strayCharacter c => "unexpected character '" ++ String.singleton c ++ "'"
  | .unclosedText => "expected closing ':' but got end of script instead"
  | .unmatchedBracket => "unmatched closing ']'"
  | .emptySubScript => "expected element but got empty sub-script instead"
  | .unknownName name => "unknown name '" ++ name ++ "'"
  | .knownName name => "cannot redefine already known name '" ++ name ++ "'"

inductive Fault where
  | pastEnd
  | noStages
  | numberTaken
  | missingArgument (builtin : String) (position : Nat)
  | badCodePoint (n : Float)
  | headOfEmpty
  | lastOfEmpty
  | tailOfEmpty
  | initOfEmpty
  | indexNegative (n : Float)
  | indexOutOfRange (n : Float)
  | tooFewArrows (builtin : String) (arity : Nat) (signature : String)
  | declaredTwice (builtin : String)
  | nothingBuilt
  | nameTaken (name : String)
  | emptyRegister (name : String)
  /-- A number that was made to fail when read. -/
  | unreadable (message : String)

def Fault.message : Fault → String
  | .pastEnd => "dereferenced a list past its end"
  | .noStages => "cannot chain zero functions"
  | .numberTaken => "number was already taken out of its string"
  | .missingArgument builtin position =>
    builtin ++ " has no argument " ++ toString position ++ " bound"
  | .badCodePoint n => Number.toText n ++ " is not a valid code point"
  | .headOfEmpty => "head of an empty list"
  | .lastOfEmpty => "last of an empty list"
  | .tailOfEmpty => "tail of an empty list"
  | .initOfEmpty => "init of an empty list"
  | .indexNegative n => "index " ++ Number.toText n ++ " is negative"
  | .indexOutOfRange n => "index " ++ Number.toText n ++ " is out of range"
  | .tooFewArrows builtin arity signature =>
    "builtin '" ++ builtin ++ "' declares " ++ toString arity ++ " arguments for '" ++
      signature ++ "'"
  | .declaredTwice builtin => "builtin '" ++ builtin ++ "' is declared twice"
  | .nothingBuilt => "no application was built"
  | .nameTaken name => "name '" ++ name ++ "' is already defined"
  | .emptyRegister name => "register '" ++ name ++ "' is empty"
  | .unreadable message => message

inductive Error where
  | malformed (cause : Malformed) (span : Span)
  | typeMismatch (found wanted : Ty)
  | coercion (found wanted : Ty)
  | runtime (fault : Fault)
  /-- A list of this type cannot be rewound. -/
  | noRewind (ty : Ty)
  /-- Reading the input or writing the output failed. -/
  | io (message : String)

namespace Error

def message : Error → String
  | .malformed cause _ => cause.message
  | .typeMismatch found wanted =>
    "type mismatch: expected " ++ wanted.toText ++ " but got " ++ found.toText
  | .coercion found wanted => "cannot coerce from " ++ found.toText ++ " to " ++ wanted.toText
  | .runtime fault => "runtime error: " ++ fault.message
  | .noRewind ty => "not implemented: rewind for " ++ ty.toText
  | .io message => message

def span? : Error → Option Span
  | .malformed _ span => some span
  | _ => none

end Error

end PullScript
