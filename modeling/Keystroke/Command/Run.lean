import Keystroke.Command.Invocation
import Keystroke.Command.Work
import Keystroke.Console.View

/-!
# Running a command

Each command is work on a host, in the order in which it loads, checks, prints and writes. A command
line that is understood comes to what its work comes to (`Outcome.ofArguments`).
-/

namespace Keystroke

/-- The policy in the heading of a replay. -/
def DebouncePolicy.text : DebouncePolicy → String
  | samples count => "Samples(" ++ toString count.toNat ++ ")"
  | ticks count => "Elapsed(" ++ toString count.toNat ++ ")"

/-- The sum of two ticks, held at the last one. -/
def Tick.saturatingAdd (tick other : Tick) : Tick :=
  if tick.toNat + other.toNat < UInt32.size then tick + other else UInt32.ofNat (UInt32.size - 1)

/-- A frame in a file. -/
def Frame.toJson (frame : Frame) : Json.Value :=
  .object [
    ("tick", .number frame.tick.toNat),
    ("config", .number frame.config.val),
    ("layers", .list (frame.layers.map fun layer => .number layer.val)),
    ("codes", .list (frame.codes.map KeyCode.toJson))]

/-- The heading of a replay. -/
def replayHeading (trace : Trace) (last : Tick) (settings : Settings) : String :=
  "\n▶️  Replaying " ++ toString trace.events.length ++ " events over " ++
    toString (last.toNat + 1) ++ " ticks (debounce " ++ settings.debouncePolicy.text ++
    ", tap-hold " ++ toString settings.tapHoldTicks.toNat ++ " ticks, " ++
    settings.interruptPolicy.name ++ ")\n"

namespace Command

open Work

/-- The keymap to work on: that of the file, or the built-in one. -/
def loadKeymap (files : Files) : Option String → Except Error Keymap
  | none => .ok Keymap.builtin
  | some path => Keymap.ofFile (files path)

/-- The settings to work with: those of the command line, or those of the file with the flags that
are given merged in. -/
def loadSettings (files : Files) (given : Settings.Given) :
    Option String → Except Error Settings
  | none => .ok given.filled
  | some path => do
    let inFile ← Settings.Given.ofFile (files path)
    pure ((inFile.over {}).merge given.filled given.sources)

/-- The text of frames in a file. -/
def framesText (frames : List Frame) : String :=
  (Json.Value.list (frames.map Frame.toJson)).pretty

/-- Writes frames to a file if there is one for them. -/
def saveFrames (frames : List Frame) : Option String → Work Unit
  | none => pure ()
  | some path => write path (framesText frames)

/-- Replays a trace and shows the frames. They are written to a file as well if that is asked
for. -/
def runReplay (keymap : Keymap) (settings : Settings) (request : ReplayRequest) : Work Unit := do
  check (keymap.validate.value.mapError .problems)
  let trace ← check (Trace.ofFile ((← read).file request.trace))
  let engine ← check ((Engine.new keymap settings).mapError .initialConfig)
  let last := Tick.saturatingAdd trace.lastTick request.tail
  print (replayHeading trace last settings)
  let frames := (Keystroke.replay engine trace last).value.2
  print (Console.frames frames)
  saveFrames frames request.json

/-- The configs that an audit shows. -/
def shownConfigs : Option UInt8 → Except IndexError (List Config)
  | none => .ok Config.all
  | some n => do pure [← Config.ofNat n.toNat]

/-- Shows a keymap and checks all of it. -/
def runValidate (keymap : Keymap) (request : ValidateRequest) : Work Unit := do
  match shownConfigs request.config with
  | .error error => throw error.message
  | .ok configs =>
    print "\n🔎 === KEYMAP AUDIT === 🔎\n"
    print (Console.summary keymap configs)
    if request.grid then
      configs.forM fun config => (keymap.usedLayers config).forM fun layer =>
        print (Console.grid keymap config layer)
    check (keymap.validate.value.mapError .problems)
    print "\n✅ Keymap is valid.\n"

/-- Writes a keymap to the console or to a file. -/
def runExport (keymap : Keymap) (request : ExportRequest) : Work Unit :=
  let text := keymap.toText request.name
  match request.output with
  | none => print (text ++ "\n")
  | some path => write path text

/-- Runs a command on the keymap it is for. -/
def run (common : CommonFlags) (command : Command) : Work Unit := do
  let files := (← read).file
  let keymap ← check (loadKeymap files common.keymap)
  match command with
  | .replay request =>
    runReplay keymap (← check (loadSettings files request.given common.settings)) request
  | .validate request => runValidate keymap request
  | .info => print Console.board
  | .exportKeymap request => runExport keymap request

end Command

/-- Runs a command line. -/
def Outcome.ofArguments (host : Host) (words : List String) : Outcome :=
  match Invocation.ofArguments words with
  | .error fault => { ending := .misuse fault }
  | .ok invocation => (invocation.command.run invocation.common).outcome host

end Keystroke
