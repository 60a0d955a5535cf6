import Keystroke.Keymap.Audit
import Keystroke.Keymap.Text
import Keystroke.Settings.Text
import Keystroke.Trace.Csv

/-!
# Loading files

Keymaps, settings and traces from what stands at a path, which may be nothing or a folder, and the
ways in which that fails.
-/

namespace Keystroke

/-- Why something cannot be loaded or used. -/
inductive Error where
  | missingFile
  | isFolder
  | notText
  | keymap (error : KeymapError)
  | settings (error : Settings.LoadError)
  | trace (fault : Csv.Fault)
  | problems (problems : List Problem)
  | initialConfig (error : IndexError)
  deriving DecidableEq, Repr

def refusal (reason : String) : String := "Keymap Validation Error: " ++ reason

def badInitialConfig (error : IndexError) : String :=
  "Configuration Error: initial_config " ++ toString error.index ++ ": " ++ error.message

def Error.message : Error → String
  | missingFile => "IO Error: No such file or directory (os error 2)"
  | isFolder => "IO Error: Is a directory (os error 21)"
  | notText => "IO Error: stream did not contain valid UTF-8"
  | keymap (.text fault) | settings (.text fault) => "JSON Parsing Error: " ++ fault.message
  | keymap (.document error) => refusal error.message
  | trace fault => "CSV Parsing Error: " ++ fault.message
  | problems found => refusal (Problem.listMessage found)
  | settings (.initialConfig error) | initialConfig error => badInitialConfig error

/-- What stands at a path. -/
inductive File where
  | missing
  | folder
  | content (bytes : ByteArray)

/-- The text of a file. -/
def File.text : File → Except Error String
  | missing => .error .missingFile
  | folder => .error .isFolder
  | content bytes =>
    match String.fromUTF8? bytes with
    | none => .error .notText
    | some text => .ok text

/-- The keymap of a file. -/
def Keymap.ofFile (file : File) : Except Error Keymap := do
  (Keymap.ofText (← file.text)).mapError .keymap

/-- The settings that a file gives. -/
def Settings.Given.ofFile (file : File) : Except Error Settings.Given := do
  (Settings.Given.ofText (← file.text)).mapError .settings

/-- The trace of a file. A folder has no rows. -/
def Trace.ofFile : File → Except Error Trace
  | .missing => .error .missingFile
  | .folder => .ok (ofEvents [])
  | .content bytes => (Trace.ofCsv bytes.toList).mapError .trace

end Keystroke
