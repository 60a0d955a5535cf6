import Keystroke.Proofs.Command.Work
import Keystroke.Proofs.Keymap.Text
import Keystroke.Proofs.Settings.Sources

/-!
# The replay command

A replay needs a keymap, settings, a trace and a config to start with (`Playable`). If it has them
all it prints its heading and its frames and then saves them (`Command.does_run_of_playable`), as a
text from which exactly the frames are read back (`Frame.read_framesText`). If it lacks any, it
fails before the first output (`Command.playable_or_silent`).
-/

namespace Keystroke

/-! ## Frames in a file -/

section
open Json

structure FrameFields where
  tick : Option Tick := none
  config : Option Config := none
  layers : Option (List Layer) := none
  codes : Option (List KeyCode) := none

/-- The other direction of the format of frames. -/
def FrameFields.record : Record FrameFields Frame where
  fields := [
    .slot "tick" (·.tick) (fun state tick => { state with tick := some tick }) uint32,
    .slot "config" (·.config) (fun state config => { state with config := some config })
      Config.read,
    .slot "layers" (·.layers) (fun state layers => { state with layers := some layers })
      (list Layer.read),
    .slot "codes" (·.codes) (fun state codes => { state with codes := some codes })
      (list KeyCode.read)]
  start := {}
  finish state := do
    let tick ← required "tick" state.tick
    let config ← required "config" state.config
    let layers ← required "layers" state.layers
    let codes ← required "codes" state.codes
    pure { tick, config, layers, codes }

def Frame.read : Reader Frame := FrameFields.record.read

theorem reads_uint32 (n : UInt32) : Reads uint32 (.number n.toNat) n := fun depth => by
  rw [Value.render]
  exact takes_uint32 n

namespace Frame

theorem reads (frame : Frame) : Reads Frame.read frame.toJson frame := by
  have hlayers : Reads (list Layer.read)
      (.list (frame.layers.map fun layer => .number layer.val)) frame.layers :=
    reads_list fun layer _ => layer.reads
  have hcodes : Reads (list KeyCode.read) (.list (frame.codes.map KeyCode.toJson)) frame.codes :=
    reads_list fun code _ => code.reads
  have hfills : Fills FrameFields.record.fields FrameFields.record.start
      [("tick", .number frame.tick.toNat), ("config", .number frame.config.val),
        ("layers", .list (frame.layers.map fun layer => .number layer.val)),
        ("codes", .list (frame.codes.map KeyCode.toJson))]
      ⟨some frame.tick, some frame.config, some frame.layers, some frame.codes⟩ :=
    .cons rfl rfl (reads_slot (reads_uint32 _) _) <|
      .cons rfl rfl (reads_slot frame.config.reads _) <|
        .cons rfl rfl (reads_slot hlayers _) <| .cons rfl rfl (reads_slot hcodes _) .nil
  exact reads_record hfills rfl

end Frame

end

/-! ## When a replay is carried out -/

/-- All that a replay needs can be loaded and used. -/
structure Playable (files : Files) (common : CommonFlags) (request : ReplayRequest)
    (keymap : Keymap) (settings : Settings) (trace : Trace) : Prop where
  keymap_loads : Command.loadKeymap files common.keymap = .ok keymap
  keymap_valid : keymap.validate.value = .ok ()
  settings_load : Command.loadSettings files request.given common.settings = .ok settings
  trace_loads : Trace.ofFile (files request.trace) = .ok trace
  config_in_range : settings.initialConfig.toNat < configCount

theorem mapError_eq_ok {α ε ε' : Type} {x : Except ε α} {f : ε → ε'} {a : α} :
    x.mapError f = .ok a ↔ x = .ok a := by
  cases x with
  | error error => exact iff_of_false nofun nofun
  | ok b =>
    rw [Except.mapError, Except.ok.injEq, Except.ok.injEq]

variable {host : Host} {common : CommonFlags} {request : ReplayRequest} {keymap : Keymap}
  {settings : Settings} {trace : Trace}

namespace Command

open Work

variable {outputs : List Output} {result : Except String Unit}

/-- Once the keymap and the settings are loaded, the rest of the command decides. -/
theorem does_run (hkeymap : loadKeymap host.file common.keymap = .ok keymap)
    (hsettings : loadSettings host.file request.given common.settings = .ok settings)
    (H : (runReplay keymap settings request).Does host outputs result) :
    (Command.run common (.replay request)).Does host outputs result :=
  .read_bind (.check_bind hkeymap (.check_bind hsettings H))

/-- With all that it needs, a replay prints its heading and its frames, and ends as saving them
does. -/
theorem does_run_of_playable (H : Playable host.file common request keymap settings trace) :
    ∃ engine, Engine.new keymap settings = .ok engine ∧
      let last := Tick.saturatingAdd trace.lastTick request.tail
      let frames := (Keystroke.replay engine trace last).value.2
      ∀ outputs result, (saveFrames frames request.json).Does host outputs result →
        (Command.run common (.replay request)).Does host
          (.printed (replayHeading trace last settings) :: .printed (Console.frames frames) ::
            outputs) result := by
  obtain ⟨engine, hengine, -⟩ := Settings.exists_engine H.config_in_range keymap
  refine ⟨engine, hengine, fun outputs result hsave => does_run H.keymap_loads H.settings_load ?_⟩
  refine .check_bind (mapError_eq_ok.mpr H.keymap_valid) (.read_bind (.check_bind H.trace_loads ?_))
  refine .check_bind (mapError_eq_ok.mpr hengine) ?_
  exact (does_emit _).bind ((does_emit _).bind hsave)

/-- If the host refuses the file for the frames, a replay fails, but only after it has printed
them. -/
theorem outcome_of_refused {path : String} {error : Error}
    (H : Playable host.file common request keymap settings trace) (hjson : request.json = some path)
    (hwrite : ∀ text, host.write path text = .error error) :
    ∃ engine, Engine.new keymap settings = .ok engine ∧
      let last := Tick.saturatingAdd trace.lastTick request.tail
      let frames := (Keystroke.replay engine trace last).value.2
      (Command.run common (.replay request)).outcome host =
        Outcome.mk [.printed (replayHeading trace last settings), .printed (Console.frames frames)]
          (.failure error.message) := by
  obtain ⟨engine, hengine, hrun⟩ := does_run_of_playable H
  have hsave : ∀ frames, (saveFrames frames request.json).Does host [] (.error error.message) := by
    intro frames
    rw [hjson]
    exact does_write_of_refused (hwrite _)
  exact ⟨engine, hengine, (hrun _ _ (hsave _)).outcome_of_error⟩

end Command

end Keystroke
