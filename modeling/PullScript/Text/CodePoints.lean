import PullScript.Bytes
import PullScript.Text.Words

namespace PullScript.Text

/-- The number that hexadecimal digits stand for. -/
def ofHexadecimal (digits : String) : Nat :=
  (digits.toList.filterMap Bytes.hexDigit?).foldl (fun n digit => 16 * n + digit) 0

/-- The entries of a table: hexadecimal numbers, with minus signs between those of one entry and blanks
between the entries. -/
def tableOf (table : String) : List (List Nat) :=
  (words table).map fun entry => (entry.splitOn "-").map ofHexadecimal

end PullScript.Text
