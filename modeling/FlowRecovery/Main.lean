import FlowRecovery.CommandLine.Run

/-!
# The program

The files that the arguments name are read, and the request is run on what they hold.
-/

namespace FlowRecovery

/-- The contents of a file, if it can be read. -/
def contents? (path : String) : IO (Option String) := do
  try
    return some (← IO.FS.readFile path)
  catch _ =>
    return none

/-- The contents of the files that a request names. -/
def Request.files (r : Request) : IO (List (String × String)) := do
  let paths := r.config?.toList ++ r.listing?.toList
  return (← paths.mapM fun path => do
    return (← contents? path).map fun text => (path, text)).filterMap id

end FlowRecovery

open FlowRecovery

/-- Runs the command line. -/
def main (arguments : List String) : IO UInt32 := do
  let files ←
    match Request.ofArguments? arguments with
    | none => pure []
    | some r => r.files
  match runArguments (fun path => List.lookup path files) arguments with
  | .ok text =>
      (← IO.getStdout).putStr text
      return 0
  | .error failure =>
      IO.eprintln ("Error: " ++ failure.message)
      if let some cause := failure.cause? then
        IO.eprintln ("\nCaused by:\n    " ++ cause)
      return failure.exitCode.toUInt32
