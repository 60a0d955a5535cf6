import Keystroke.Command.Run
import Keystroke.Proofs.Arguments

/-!
# Settings on the command line

Each of the five settings has a flag, a field in a document and a built-in value, which is the
default of the flag as well as that of the field (`get_flagDefaults`, `get_default`). Merging the
command line into other settings takes what is given there and leaves the rest (`merge_eq_over`).
What arguments give of a setting is said by its flag alone, wherever it stands among the words after
the name of the command (`tells_of_ofArguments`).
-/

namespace Keystroke

theorem Arguments.ValueSource.of_eq_commandLine_iff {α : Type} {given : Option α} :
    of given = commandLine ↔ given.isSome := by
  cases given <;> simp [of]

/-- One of the settings. -/
inductive Setting where
  | debounceSamples
  | debounceTicks
  | tapHoldTicks
  | interruptPolicy
  | initialConfig
  deriving DecidableEq, Repr

namespace Setting

/-- In the order of a list. -/
def all : List Setting :=
  [debounceSamples, debounceTicks, tapHoldTicks, interruptPolicy, initialConfig]

/-- The values of a setting. -/
abbrev Value : Setting → Type
  | debounceSamples | initialConfig => UInt8
  | debounceTicks => Option Tick
  | tapHoldTicks => Tick
  | interruptPolicy => InterruptPolicy

def builtIn : (setting : Setting) → setting.Value
  | debounceSamples => (5 : UInt8)
  | debounceTicks => (none : Option Tick)
  | tapHoldTicks => (200 : UInt32)
  | interruptPolicy => InterruptPolicy.holdOnOtherKeyPress
  | initialConfig => (0 : UInt8)

/-- The name of the flag. -/
def flag : Setting → String
  | debounceSamples => "debounce-samples"
  | debounceTicks => "debounce-ticks"
  | tapHoldTicks => "tap-hold-ticks"
  | interruptPolicy => "interrupt-policy"
  | initialConfig => "initial-config"

/-- The name of the field. -/
def field : Setting → String
  | debounceSamples => "debounce_samples"
  | debounceTicks => "debounce_ticks"
  | tapHoldTicks => "tap_hold_ticks"
  | interruptPolicy => "interrupt_policy"
  | initialConfig => "initial_config"

/-- The value that a word on the command line stands for. -/
def ofWord : (setting : Setting) → String → Except Arguments.Fault setting.Value
  | debounceSamples | initialConfig => Arguments.uint8
  | debounceTicks => fun word => some <$> Arguments.uint32 word
  | tapHoldTicks => Arguments.uint32
  | interruptPolicy => Settings.policyOfWord

end Setting

namespace Settings

def get (settings : Settings) : (setting : Setting) → setting.Value
  | .debounceSamples => settings.debounceSamples
  | .debounceTicks => settings.debounceTicks
  | .tapHoldTicks => settings.tapHoldTicks
  | .interruptPolicy => settings.interruptPolicy
  | .initialConfig => settings.initialConfig

def put (settings : Settings) : (setting : Setting) → setting.Value → Settings
  | .debounceSamples, n => { settings with debounceSamples := n }
  | .debounceTicks, n => { settings with debounceTicks := n }
  | .tapHoldTicks, n => { settings with tapHoldTicks := n }
  | .interruptPolicy, policy => { settings with interruptPolicy := policy }
  | .initialConfig, n => { settings with initialConfig := n }

theorem get_put_self (settings : Settings) (setting : Setting) (value : setting.Value) :
    (settings.put setting value).get setting = value := by
  cases setting <;> rfl

theorem get_put_of_ne {setting other : Setting} (h : other ≠ setting) (settings : Settings)
    (value : setting.Value) : (settings.put setting value).get other = settings.get other := by
  cases setting <;> cases other <;> first | rfl | exact absurd rfl h

/-- Settings with the same values are the same. -/
theorem ext_get {settings other : Settings}
    (h : ∀ setting, settings.get setting = other.get setting) : settings = other := by
  obtain ⟨samples, ticks, holdTicks, policy, config⟩ := settings
  obtain rfl : samples = _ := h .debounceSamples
  obtain rfl : ticks = _ := h .debounceTicks
  obtain rfl : holdTicks = _ := h .tapHoldTicks
  obtain rfl : policy = _ := h .interruptPolicy
  obtain rfl : config = _ := h .initialConfig
  rfl

namespace Given

def get (given : Given) : (setting : Setting) → Option setting.Value
  | .debounceSamples => given.debounceSamples
  | .debounceTicks => given.debounceTicks
  | .tapHoldTicks => given.tapHoldTicks
  | .interruptPolicy => given.interruptPolicy
  | .initialConfig => given.initialConfig

def set (given : Given) : (setting : Setting) → setting.Value → Given
  | .debounceSamples, n => { given with debounceSamples := some n }
  | .debounceTicks, n => { given with debounceTicks := some n }
  | .tapHoldTicks, n => { given with tapHoldTicks := some n }
  | .interruptPolicy, policy => { given with interruptPolicy := some policy }
  | .initialConfig, n => { given with initialConfig := some n }

theorem get_empty (setting : Setting) : ({} : Given).get setting = none := by
  cases setting <;> rfl

theorem get_set_self (given : Given) (setting : Setting) (value : setting.Value) :
    (given.set setting value).get setting = some value := by
  cases setting <;> rfl

theorem get_set_of_ne {setting other : Setting} (h : other ≠ setting) (given : Given)
    (value : setting.Value) : (given.set setting value).get other = given.get other := by
  cases setting <;> cases other <;> first | rfl | exact absurd rfl h

end Given

theorem get_over (given : Given) (defaults : Settings) (setting : Setting) :
    (given.over defaults).get setting = (given.get setting).getD (defaults.get setting) := by
  cases setting <;> rfl

/-! ## The two lists of defaults -/

theorem get_default (setting : Setting) : ({} : Settings).get setting = setting.builtIn := by
  cases setting <;> rfl

theorem get_flagDefaults (setting : Setting) : flagDefaults.get setting = setting.builtIn := by
  cases setting <;> rfl

theorem flagDefaults_eq_default : flagDefaults = {} :=
  ext_get fun setting => (get_flagDefaults setting).trans (get_default setting).symm

/-! ## Merging -/

section
variable {settings cli : Settings} {sources : Arguments.Sources}

/-- One step of the merge, for any setting. -/
def mergeOne (cli : Settings) (sources : Arguments.Sources) (settings : Settings)
    (setting : Setting) : Settings :=
  updateIfPresent sources setting.field (·.put setting (cli.get setting)) settings

theorem get_mergeOne (settings : Settings) (setting other : Setting) :
    (mergeOne cli sources settings setting).get other =
      if other = setting ∧ sources other.field = some .commandLine then cli.get other
      else settings.get other := by
  rw [mergeOne, updateIfPresent]
  by_cases hgiven : sources setting.field = some .commandLine
  · rw [if_pos hgiven]
    by_cases hother : other = setting
    · subst hother
      rw [get_put_self, if_pos ⟨rfl, hgiven⟩]
    · rw [get_put_of_ne hother, if_neg fun h => hother h.1]
  · rw [if_neg hgiven, if_neg]
    rintro ⟨rfl, h⟩
    exact hgiven h

/-- No field is forgotten, none is taken from another, and each goes by its own flag. -/
theorem merge_eq_foldl (settings cli : Settings) (sources : Arguments.Sources) :
    settings.merge cli sources = Setting.all.foldl (mergeOne cli sources) settings := rfl

theorem get_foldl_mergeOne (all : List Setting) (settings : Settings) (setting : Setting) :
    (all.foldl (mergeOne cli sources) settings).get setting =
      if setting ∈ all ∧ sources setting.field = some .commandLine then cli.get setting
      else settings.get setting := by
  induction all generalizing settings with
  | nil => rw [List.foldl_nil, if_neg fun h => List.not_mem_nil h.1]
  | cons first rest ih =>
    rw [List.foldl_cons, ih, get_mergeOne]
    by_cases hgiven : sources setting.field = some .commandLine
    · by_cases hrest : setting ∈ rest
      · rw [if_pos ⟨hrest, hgiven⟩, if_pos ⟨List.mem_cons_of_mem first hrest, hgiven⟩]
      · simp only [List.mem_cons, hrest, hgiven, or_false, and_true, if_false]
    · rw [if_neg fun h => hgiven h.2, if_neg fun h => hgiven h.2, if_neg fun h => hgiven h.2]

/-- A merge takes the settings whose flags are given and keeps the others. -/
theorem get_merge (settings cli : Settings) (sources : Arguments.Sources) (setting : Setting) :
    (settings.merge cli sources).get setting =
      if sources setting.field = some .commandLine then cli.get setting
      else settings.get setting := by
  have hall : setting ∈ Setting.all := by cases setting <;> decide
  rw [merge_eq_foldl, get_foldl_mergeOne]
  simp only [hall, true_and]

end

/-- The source of a value tells a flag that is given from one with its default. -/
theorem sources_eq_commandLine_iff (given : Given) (setting : Setting) :
    given.sources setting.field = some .commandLine ↔ (given.get setting).isSome := by
  cases setting with
  | debounceTicks =>
    change given.debounceTicks.map _ = _ ↔ given.debounceTicks.isSome
    cases given.debounceTicks <;> simp
  | _ => exact Option.some_inj.trans Arguments.ValueSource.of_eq_commandLine_iff

/-- Merging the command line into settings is giving what it gives over them. -/
theorem merge_eq_over (settings : Settings) (given : Given) :
    settings.merge given.filled given.sources = given.over settings := by
  apply ext_get
  intro setting
  rw [get_merge, get_over, Given.filled, get_over]
  cases hgiven : given.get setting with
  | some value =>
    have hsource : given.sources setting.field = some .commandLine := by
      rw [sources_eq_commandLine_iff, hgiven]
      rfl
    rw [if_pos hsource]
    rfl
  | none =>
    have hsource : given.sources setting.field ≠ some .commandLine := by
      rw [Ne, sources_eq_commandLine_iff, hgiven]
      exact nofun
    rw [if_neg hsource]
    rfl

/-! ## The command line -/

section
open Arguments

theorem isName_flag (setting : Setting) : IsName setting.flag where
  ne_empty := by cases setting <;> simp [Setting.flag]
  no_equals := by cases setting <;> simp [Setting.flag]

theorem isSlot_flags (setting : Setting) :
    IsSlot flags setting.flag (·.get setting) setting.ofWord := by
  intro flag hm
  simp only [flags, List.mem_cons, List.not_mem_nil, or_false] at hm
  rcases hm with rfl | rfl | rfl | rfl | rfl <;> cases setting <;>
    first
    | exact .inl ⟨rfl, fills_once rfl rfl fun _ _ => rfl⟩
    | exact .inr ⟨by simp [Setting.flag], keeps_once rfl fun _ _ => rfl⟩

theorem ne_flag_of_mem_common (setting : Setting) {flag : Flag CommonFlags}
    (h : flag ∈ CommonFlags.flags) : flag.long ≠ setting.flag := by
  simp only [CommonFlags.flags, List.mem_cons, List.not_mem_nil, or_false] at h
  rcases h with rfl | rfl | rfl <;> cases setting <;> simp [Setting.flag]

theorem isSlot_replayFlags (setting : Setting) :
    IsSlot Invocation.replayFlags setting.flag (·.given.get setting) setting.ofWord := by
  have hown : IsSlot (flags.map (·.within (·.given)
      fun (state : Invocation.ReplayFlags) given => { state with given })) setting.flag
      (·.given.get setting) setting.ofWord := (isSlot_flags setting).within fun _ _ => rfl
  intro flag hm
  rw [Invocation.replayFlags, List.mem_append, List.mem_append] at hm
  rcases hm with (hm | hm) | hm
  · obtain ⟨flag, hflag, rfl⟩ := List.mem_map.mp hm
    refine .inr ⟨?_, keeps_within ?_ flag⟩
    · exact ne_flag_of_mem_common setting hflag
    · exact fun _ _ => rfl
  · exact hown flag hm
  · simp only [List.mem_cons, List.not_mem_nil, or_false] at hm
    rcases hm with rfl | rfl | rfl <;>
      exact .inr ⟨by cases setting <;> simp [Setting.flag], keeps_once rfl fun _ _ => rfl⟩

/-- The words of a replay give what its request asks for. -/
theorem tells_of_ofCommand {outer common : CommonFlags} {name : String} {words : List String}
    {request : ReplayRequest}
    (h : Invocation.ofCommand outer name words = .ok ⟨common, .replay request⟩)
    (setting : Setting) :
    name = "replay" ∧
      Tells words setting.flag setting.ofWord none (request.given.get setting) := by
  rw [Invocation.ofCommand.eq_def] at h
  split at h
  · obtain ⟨state, hread, h⟩ := bind_eq_ok h
    obtain ⟨consumed, hwords, htells⟩ :=
      (applies_of_readAll hread).tells (isSlot_replayFlags setting) (isName_flag setting)
    rw [List.append_nil] at hwords
    subst hwords
    split at h
    · cases h
    · cases h
      refine ⟨rfl, ?_⟩
      cases setting <;> exact htells
  · obtain ⟨state, -, h⟩ := bind_eq_ok h
    cases h
  · obtain ⟨state, -, h⟩ := bind_eq_ok h
    cases h
  · obtain ⟨state, -, h⟩ := bind_eq_ok h
    cases h
  · cases h

theorem tells_of_ofArguments {words : List String} {common : CommonFlags} {request : ReplayRequest}
    (h : Invocation.ofArguments words = .ok ⟨common, .replay request⟩) (setting : Setting) :
    Tells words setting.flag setting.ofWord none (request.given.get setting) := by
  obtain ⟨reading, hread, h⟩ := bind_eq_ok h
  obtain ⟨outer, hsettle, h⟩ := bind_eq_ok h
  -- no flag for a setting comes before the name of the command
  obtain ⟨consumed, hwords, hnone⟩ := (appliesPending_of_read hread hsettle).applies.not_occurs
    (fun flag hm => ne_flag_of_mem_common setting hm) (isName_flag setting)
  rw [hwords]
  split at h
  · cases h
  · next name words hrest =>
    rw [hrest]
    obtain ⟨rfl, htells⟩ := tells_of_ofCommand h setting
    have hreplay : ∀ found, "replay" ≠ longWord setting.flag found := by
      apply ne_longWord (isName_flag setting)
      intro found hfound
      cases hfound
    exact (htells.cons_of_ne hreplay).append_left hnone

end

end Settings

end Keystroke
