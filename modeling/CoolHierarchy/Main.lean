import CoolHierarchy.CommandLine.Run

/-!
# The program

Looks at files, reads the environment, and writes what a run has to say.
-/

open CoolHierarchy

/-- What lies under a path on the machine. -/
def lookAtFile (path : String) : IO Entry := do
  try
    return .ofBytes (← IO.FS.readBinFile path)
  catch e =>
    match e with
    | .noFileOrDirectory .. => return .missing
    | .inappropriateType .. => return if ← isFolder path then .directory else .blocked
    | .invalidArgument .. => return .blocked
    | _ => return .directory
where
  isFolder (path : String) : IO Bool := do
    try
      discard (IO.FS.Handle.mk path .read)
      return true
    catch _ => return false

def main (args : List String) : IO UInt32 := do
  let environment ← IO.getEnv CommandLine.entryClassVariable
  let result ← CommandLine.run lookAtFile environment args
  (← IO.getStdout).putStr result.output
  (← IO.getStderr).putStr result.errors
  return result.status.toUInt32
