import PullScript.CommandLine.Execute

open PullScript PullScript.CommandLine

/-- The files and the standard input of this process. -/
def processHost : Host IO where
  file path := do
    try
      return .ok (← IO.FS.readBinFile path).toList
    catch
      | .noFileOrDirectory .. => return .error "No such file or directory (os error 2)"
      | error => return .error (toString error)
  input := return (← (← IO.getStdin).readBinToEnd).toList

def main (args : List String) : IO UInt32 := do
  let outcome ← execute processHost args
  let out ← IO.getStdout
  out.write ⟨outcome.out.toArray⟩
  out.flush
  (← IO.getStderr).putStr outcome.err
  return outcome.code.toUInt32
