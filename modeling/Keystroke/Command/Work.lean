import Keystroke.Load

/-!
# Work on a host

A command reads files, prints and writes as it goes along, and may fail at any point (`Work`). What
it has printed and written by then stays, so where it stops decides what is left of it (`Outcome`).
-/

namespace Keystroke

/-- The files a command can read, by path. -/
abbrev Files := String → File

/-- What a command runs on. -/
structure Host where
  file : Files
  /-- Whether a text can be written at a path, which is the first one. -/
  write : String → String → Except Error Unit

/-- What a command leaves behind. -/
inductive Output where
  | printed (text : String)
  | written (path text : String)
  deriving DecidableEq, Repr

/-- Work on a host, which fails with a message. The outputs so far outlast a failure. -/
abbrev Work := ReaderT Host (ExceptT String (StateM (List Output)))

namespace Work

/-- One more output. -/
def emit (output : Output) : Work Unit := modify (· ++ [output])

def print (text : String) : Work Unit := emit (.printed text)

/-- The value of something that can fail. -/
def check {α : Type} : Except Error α → Work α
  | .ok a => pure a
  | .error error => throw error.message

/-- Writes a file if the host can. -/
def write (path text : String) : Work Unit := do
  check ((← read).write path text)
  emit (.written path text)

end Work

/-- How a command ends. -/
inductive Ending where
  | success
  /-- It was asked for properly and could not be done. -/
  | failure (message : String)
  /-- The command line is not understood. -/
  | misuse (fault : Arguments.Fault)
  deriving DecidableEq, Repr

/-- The exit code of an ending. -/
def Ending.code : Ending → Nat
  | success => 0
  | failure _ => 1
  | misuse _ => 2

/-- What a command comes to. -/
structure Outcome where
  outputs : List Output := []
  ending : Ending := .success
  deriving DecidableEq, Repr

/-- What work comes to on a host. -/
def Work.outcome (work : Work Unit) (host : Host) : Outcome :=
  match (work.run host).run.run [] with
  | (.ok (), outputs) => { outputs }
  | (.error message, outputs) => { outputs, ending := .failure message }

end Keystroke
