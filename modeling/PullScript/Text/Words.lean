import PullScript.Text.Blank

namespace PullScript.Text

/-- The maximal runs of non-blank characters, where `run` holds the characters of the run that has
been entered, latest first. -/
def wordsFrom (run : List Char) : List Char → List (List Char)
  | [] => if run.isEmpty then [] else [run.reverse]
  | c :: rest =>
    if isBlank c then
      if run.isEmpty then wordsFrom [] rest else run.reverse :: wordsFrom [] rest
    else wordsFrom (c :: run) rest

/-- The words of a text: its maximal runs of non-blank characters, in order. -/
def words (text : String) : List String :=
  (wordsFrom [] text.toList).map String.ofList

/-- The words of a text with one space between them. -/
def singleSpaced (text : String) : String :=
  " ".intercalate (words text)

/-- Fills lines with words, `line` being the one under construction: a word goes on the line when
the line with it stays within `width` bytes, and starts the next line otherwise. -/
def fillLines (width : Nat) (line : String) : List String → List String
  | [] => [line]
  | word :: rest =>
    if line.utf8ByteSize + 1 + word.utf8ByteSize ≤ width then
      fillLines width (line ++ " " ++ word) rest
    else line :: fillLines width word rest

/-- Greedy word wrap. A word longer than the width gets a line of its own. -/
def wrapWords (width : Nat) (text : String) : List String :=
  match words text with
  | [] => []
  | word :: rest => fillLines width word rest

end PullScript.Text
