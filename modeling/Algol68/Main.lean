import Algol68.CommandLine

/- The program: it reads a tree, compiles it and writes the source and the marked tree. -/

------ Files

namespace Algol68

namespace Program

/- All that is left of a stream. -/
partial def readAll
    (stream : IO.FS.Stream)
    (start : String) : IO String := do
  let line ← stream.getLine
  if line.isEmpty then pure start else readAll stream (start ++ line)

def readTree (settings : Settings) : IO (Option String) := do
  match settings.tree with
  | some path =>
    try
      pure (some (← IO.FS.readFile path))
    catch _ => pure none
  | none => pure (some (← readAll (← IO.getStdin) ""))

def writeText (path : Option String) (text : String) : IO Unit := do
  match path with
  | some path => IO.FS.writeFile path text
  | none => IO.print text

------ The Program

/- What the program says about its own use. -/
def usage : String :=
  "Usage: a68c [-O LEVEL] [--checked] [-o FILE] " ++ "[--annotated FILE] [-v] [TREE]"

def printReports (outcome : Outcome) : IO Unit := do
  for report in outcome.reports do
    IO.eprintln (report.cause.code ++ ": " ++ report.cause.message ++ "\n" ++ report.help)
  IO.eprintln (toString outcome.functionCount ++ " functions generated, " ++
      toString outcome.reports.length ++ " diagnostics")

def deliver (settings : Settings) (outcome : Outcome) : IO UInt32 := do
  match outcome.source with
  | some text => writeText settings.output text
  | none => pure ()
  match outcome.ending with
  | .done => do
    printReports outcome
    match settings.annotated, outcome.annotated with
    | some path, some text => IO.FS.writeFile path text
    | _, _ => pure ()
    pure 0
  | .failed message => do
    IO.eprintln message
    pure 1
  | .faulted fault => do
    IO.eprintln (fault.message?.getD "malformed syntax tree")
    pure 101

def run (arguments : List String) : IO UInt32 := do
  match CommandLine.parse arguments with
  | .ok settings => do
    let text ← readTree settings
    deliver settings (settings.outcome text)
  | .error .displayHelp | .error .displayVersion => do
    IO.println usage
    pure 0
  | .error _ => do
    IO.eprintln usage
    pure 2

end Program

end Algol68

def main (arguments : List String) : IO UInt32 := Algol68.Program.run arguments
