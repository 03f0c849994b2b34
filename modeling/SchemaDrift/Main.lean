import SchemaDrift.CommandLine

/-!
# The executable

Reads the files that the arguments name, runs the program and writes what it leaves behind.
-/

namespace SchemaDrift

def readSource (path : String) : IO Source := do
  match ← (IO.FS.readBinFile path).toBaseIO with
  | .ok content => return .file content
  | .error _ => return .unreadable

/-- Runs the program on the files that its arguments name. -/
def execute (args : List String) : IO UInt32 := do
  let files ← (CommandLine.paths args).mapM fun path => do
    let source ← readSource path
    return (path, source)
  match CommandLine.run args fun path => (files.lookup path).getD .unreadable with
  | .ok output =>
    (← IO.getStdout).putStr output.stdout
    (← IO.getStderr).putStr output.stderr
    return output.code.toUInt32
  | .error crash =>
    (← IO.getStderr).putStr (crash.message ++ "\n")
    return 1

end SchemaDrift

def main (args : List String) : IO UInt32 := SchemaDrift.execute args
