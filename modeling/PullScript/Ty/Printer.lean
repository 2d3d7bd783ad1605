import PullScript.Ty.Basic

namespace PullScript.Ty

/-- The part of an unknown's name that is shown: what stands before the first underscore. -/
def shownName (name : String) : List Char :=
  name.toList.takeWhile (· != '_')

def star (endless : Bool) : List Char :=
  if endless then ['*'] else []

/-- The text of a list type with no element types. -/
def mixed : List Char :=
  ['[', '_', 'm', 'i', 'x', 'e', 'd', ']']

mutual

def chars : Ty → List Char
  | unknown name => shownName name
  | num => ['N', 'u', 'm']
  | str endless => ['S', 't', 'r'] ++ star endless
  | lst [] endless _ => mixed ++ star endless
  | lst (first :: rest) endless tuple =>
    (if tuple then '(' else '[') ::
      (first.chars ++ charsAfterFirst rest ++ (if tuple then ')' else ']') :: star endless)
  | arrow (arrow arg₁ result₁) result =>
    '(' :: ((arrow arg₁ result₁).chars ++ ')' :: [' ', '-', '>', ' '] ++ result.chars)
  | arrow arg result => arg.chars ++ [' ', '-', '>', ' '] ++ result.chars

/-- The characters of the element types after the first one. -/
def charsAfterFirst : List Ty → List Char
  | [] => []
  | ty :: rest => ',' :: ' ' :: (ty.chars ++ charsAfterFirst rest)

end

def toText (ty : Ty) : String :=
  String.ofList ty.chars

end PullScript.Ty
