import Keystroke.Settings.Flags

/-!
# The command line

What the words of a command line ask for. Three flags may stand before the name of the command or
after it, where they count more; the other flags belong to their commands.
-/

namespace Keystroke

open Arguments

/-- The flags that every command takes. -/
structure CommonFlags where
  keymap : Option String := none
  settings : Option String := none
  debug : Bool := false
  deriving DecidableEq, Repr

namespace CommonFlags

def verbatim (word : String) : Except Fault String := .ok word

/-- The flags that every command takes. -/
def flags : List (Flag CommonFlags) :=
  [{ long := "keymap"
     short := some 'k'
     effect := once (·.keymap) (fun common path => { common with keymap := some path }) verbatim },
   { long := "settings"
     short := some 's'
     effect := once (·.settings) (fun common path => { common with settings := some path })
       verbatim },
   { long := "debug"
     effect := onceSwitch (·.debug) (fun common => { common with debug := true }) }]

end CommonFlags

/-- The flags after the name of the command, over those before it. -/
def CommonFlags.over (inner outer : CommonFlags) : CommonFlags where
  keymap := inner.keymap <|> outer.keymap
  settings := inner.settings <|> outer.settings
  debug := inner.debug || outer.debug

structure ReplayRequest where
  given : Settings.Given := {}
  trace : String
  /-- Ticks to go on after the last event. -/
  tail : Tick := 1000
  /-- A file for the frames. -/
  json : Option String := none
  deriving DecidableEq, Repr

structure ValidateRequest where
  /-- The only config to show. -/
  config : Option UInt8 := none
  grid : Bool := false
  deriving DecidableEq, Repr

structure ExportRequest where
  /-- The file to write in place of the console. -/
  output : Option String := none
  name : String := "default"
  deriving DecidableEq, Repr

/-- A command. -/
inductive Command where
  | replay (request : ReplayRequest)
  | validate (request : ValidateRequest)
  | info
  | exportKeymap (request : ExportRequest)
  deriving DecidableEq, Repr

/-- A whole command line. -/
structure Invocation where
  common : CommonFlags
  command : Command
  deriving DecidableEq, Repr

namespace Invocation

structure ReplayFlags where
  common : CommonFlags := {}
  given : Settings.Given := {}
  trace : Option String := none
  tail : Option Tick := none
  json : Option String := none

def replayFlags : List (Flag ReplayFlags) :=
  CommonFlags.flags.map (·.within (·.common) fun state common => { state with common }) ++
  Settings.flags.map (·.within (·.given) fun state given => { state with given }) ++
  [{ long := "trace"
     short := some 't'
     effect := once (·.trace) (fun state path => { state with trace := some path })
       CommonFlags.verbatim },
   { long := "tail"
     effect := once (·.tail) (fun state n => { state with tail := some n }) uint32 },
   { long := "json"
     effect := once (·.json) (fun state path => { state with json := some path })
       CommonFlags.verbatim }]

structure ValidateFlags where
  common : CommonFlags := {}
  request : ValidateRequest := {}

def validateFlags : List (Flag ValidateFlags) :=
  CommonFlags.flags.map (·.within (·.common) fun state common => { state with common }) ++
  [{ long := "config"
     short := some 'c'
     effect := once (·.request.config)
       (fun state n => { state with request.config := some n }) uint8 },
   { long := "grid"
     effect := onceSwitch (·.request.grid) (fun state => { state with request.grid := true }) }]

structure ExportFlags where
  common : CommonFlags := {}
  output : Option String := none
  name : Option String := none

def exportFlags : List (Flag ExportFlags) :=
  CommonFlags.flags.map (·.within (·.common) fun state common => { state with common }) ++
  [{ long := "output"
     short := some 'o'
     effect := once (·.output) (fun state path => { state with output := some path })
       CommonFlags.verbatim },
   { long := "name"
     effect := once (·.name) (fun state name => { state with name := some name })
       CommonFlags.verbatim }]

/-- Reads the words after the name of a command. -/
def ofCommand (outer : CommonFlags) (name : String) (words : List String) :
    Except Fault Invocation := do
  match name with
  | "replay" =>
    let state ← readAll replayFlags {} words
    match state.trace with
    | none => throw .missing
    | some trace =>
      let request : ReplayRequest :=
        { given := state.given, trace, tail := state.tail.getD 1000, json := state.json }
      pure { common := state.common.over outer, command := .replay request }
  | "validate" =>
    let state ← readAll validateFlags {} words
    pure { common := state.common.over outer, command := .validate state.request }
  | "info" =>
    let common ← readAll CommonFlags.flags {} words
    pure { common := common.over outer, command := .info }
  | "export" =>
    let state ← readAll exportFlags {} words
    let request : ExportRequest := { output := state.output, name := state.name.getD "default" }
    pure { common := state.common.over outer, command := .exportKeymap request }
  | _ => throw .unknown

/-- Reads a whole command line, without the name of the program. -/
def ofArguments (words : List String) : Except Fault Invocation := do
  let reading ← read CommonFlags.flags {} none words
  let outer ← settle reading.state reading.pending
  match reading.rest with
  | [] => throw .missing
  | name :: words => ofCommand outer name words

end Invocation

end Keystroke
