import Keystroke.Command.Run

/-!
# The program

Reads the files that the command line names, runs the command and carries its outputs out.
-/

namespace Keystroke

/-- The paths of the files that a command line reads. -/
def Invocation.inputs (invocation : Invocation) : List String :=
  let trace :=
    match invocation.command with
    | .replay request => [request.trace]
    | _ => []
  invocation.common.keymap.toList ++ invocation.common.settings.toList ++ trace

/-- What is in an opened file. A folder can be opened but not read. -/
def readOpened (handle : IO.FS.Handle) : IO File := do
  try
    pure (.content (← handle.readBinToEnd))
  catch _ =>
    pure .folder

/-- What stands at a path. -/
def readFile (path : String) : IO File := do
  try
    readOpened (← IO.FS.Handle.mk path .read)
  catch _ =>
    pure .missing

/-- The files at some paths. -/
def readFiles (paths : List String) : IO Files := do
  let found ← paths.mapM fun path => do pure (path, ← readFile path)
  pure fun path => ((found.find? (·.1 = path)).map (·.2)).getD .missing

def Output.carryOut : Output → IO Unit
  | printed text => IO.print text
  | written path text => IO.FS.writeFile path text

/-- Says on the error stream how a command ended, and answers with the exit code. -/
def Ending.report (ending : Ending) : IO UInt32 := do
  match ending with
  | .success => pure ()
  | .failure message => IO.eprintln message
  | .misuse _ => IO.eprintln "usage: [replay|validate|info|export] [flags]"
  pure ending.code.toUInt32

/-- Carries the outputs out one by one. The program ends at the first that cannot be. -/
def Outcome.carryOut (outcome : Outcome) : IO UInt32 := do
  try
    outcome.outputs.forM Output.carryOut
    outcome.ending.report
  catch error =>
    (Ending.failure (toString error)).report

end Keystroke

open Keystroke in
/-- Runs the command line it is given. -/
def main (words : List String) : IO UInt32 := do
  let paths :=
    match Invocation.ofArguments words with
    | .ok invocation => invocation.inputs
    | .error _ => []
  -- whether a file can be written shows when it is
  let host : Host := { file := ← readFiles paths, write := fun _ _ => .ok () }
  (Outcome.ofArguments host words).carryOut
