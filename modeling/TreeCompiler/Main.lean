import TreeCompiler.CommandLine.Run

/-!
# The program

The command line on the file system of the machine it runs on.
-/

namespace TreeCompiler.CommandLine

/-- The reason an operation on a file fails, as the machine gives it. -/
def reasonOf (e : IO.Error) : String :=
  match e with
  | .noFileOrDirectory _ code details | .inappropriateType _ code details
  | .permissionDenied _ code details | .invalidArgument _ code details =>
    s!"{details} (os error {code})"
  | _ => toString e

def realFileSystem : FileSystem IO where
  read path := do
    try
      return .ok (← IO.FS.readFile path)
    catch e => return .error (reasonOf e)
  write path bytes := do
    try
      IO.FS.writeBinFile path ⟨bytes.toArray⟩
      return .ok ()
    catch e => return .error (reasonOf e)

end TreeCompiler.CommandLine

def main (args : List String) : IO UInt32 := do
  let outcome ← TreeCompiler.CommandLine.run TreeCompiler.CommandLine.realFileSystem args
  IO.print outcome.stdout
  IO.eprint outcome.stderr
  return outcome.exit
