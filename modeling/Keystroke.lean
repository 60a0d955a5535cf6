import Keystroke.Command.Directory
import Keystroke.Main
import Keystroke.Proofs.LayerStack
import Keystroke.Proofs.Resolver.Effect
import Keystroke.Proofs.Resolver.Holds
import Keystroke.Proofs.Resolver.History
import Keystroke.Proofs.Resolver.Fixed
import Keystroke.Proofs.Engine.Deeds
import Keystroke.Proofs.Engine.Layers
import Keystroke.Proofs.Debounce
import Keystroke.Proofs.Engine.Coupling
import Keystroke.Proofs.Engine.Decision
import Keystroke.Proofs.Debounce.Runs
import Keystroke.Proofs.Debounce.Fixed
import Keystroke.Proofs.Json.Numeral
import Keystroke.Proofs.Json.Written
import Keystroke.Proofs.Keymap.Document
import Keystroke.Proofs.Engine.Course
import Keystroke.Proofs.Engine.Switch
import Keystroke.Proofs.Keymap.Text
import Keystroke.Proofs.Trace
import Keystroke.Proofs.Replay
import Keystroke.Proofs.Report
import Keystroke.Proofs.Engine.ClockShift
import Keystroke.Proofs.Engine.Holding
import Keystroke.Proofs.Engine.Delivery
import Keystroke.Proofs.Engine.PlainBase
import Keystroke.Proofs.Keymap.Audit
import Keystroke.Proofs.Engine.Authored
import Keystroke.Proofs.Engine.Interrupt
import Keystroke.Proofs.Engine.Combined
import Keystroke.Proofs.Engine.Requests
import Keystroke.Proofs.Buffer
import Keystroke.Proofs.Report.Bitmap
import Keystroke.Proofs.Report.Fixed
import Keystroke.Proofs.LayerStack.Fixed
import Keystroke.Proofs.LayerStack.Precedence
import Keystroke.Proofs.Report.Assembly
import Keystroke.Proofs.TapHold
import Keystroke.Proofs.TapHold.Decisions
import Keystroke.Proofs.Resolver.Momentary
import Keystroke.Proofs.Engine.IdleCycles
import Keystroke.Proofs.Debounce.SteadyClock
import Keystroke.Proofs.Engine.Immediate
import Keystroke.Proofs.Csv.Written
import Keystroke.Proofs.Csv.Field
import Keystroke.Proofs.Trace.Csv
import Keystroke.Proofs.Json.Grammar
import Keystroke.Proofs.Arguments
import Keystroke.Proofs.Settings
import Keystroke.Proofs.Json.Accepted
import Keystroke.Proofs.Settings.Document
import Keystroke.Proofs.Settings.Sources
import Keystroke.Proofs.Settings.Debouncing
import Keystroke.Proofs.Action
import Keystroke.Proofs.Chord
import Keystroke.Proofs.Command.Replay
