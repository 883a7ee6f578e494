import EntityFilter.Program.Command

namespace EntityFilter.Program

def readFile? (path : String) : IO (Option String) :=
  try
    return some (← IO.FS.readFile path)
  catch _ => return none

/-- The files that a request names, by their paths. -/
def namedFiles : Option Request → IO (List (String × Option String))
  | some (.check schema _ _ a) =>
    (schema :: a.config.toList).mapM fun path => do return (path, ← readFile? path)
  | _ => return []

/-- All of the standard input, unless it is a terminal. -/
def readInput? : IO (Option String) := do
  let stdin ← IO.getStdin
  if ← stdin.isTty then return none else return some (← stdin.readToEnd)

def needsInput : Option Request → Bool
  | some (.check _ _ _ a) => a.input.isNone && !a.compileOnly
  | _ => false

end EntityFilter.Program

open EntityFilter.Program

/-- Reads the files that the arguments name and, where a check needs it, the standard input. -/
def main (arguments : List String) : IO UInt32 := do
  let request := Request.ofArguments arguments
  let files ← namedFiles request
  let stdin ← if needsInput request then readInput? else pure none
  let output := run .standard (fun path => (files.lookup path).join) stdin arguments
  IO.print output.stdout
  IO.eprint output.stderr
  return output.exit.toUInt32
