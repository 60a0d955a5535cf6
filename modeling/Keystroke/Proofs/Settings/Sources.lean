import Keystroke.Proofs.Settings.Document

/-!
# Where the settings of a replay come from

The value of each setting is the one of its flag if that stands in the arguments, else the one that
the document gives, else the one that is built in (`HasSource`), whatever the other settings come
from. A document is refused if and only if it comes to a config that the board does not have.
-/

namespace Keystroke

namespace Settings

open Arguments

/-- The source of the value of a setting. -/
inductive HasSource (words : List String) (items : List Item) (setting : Setting) :
    setting.Value → Prop where
  | flag {word : String} {value : setting.Value} : GivesOnly words setting.flag word →
      setting.ofWord word = .ok value → HasSource words items setting value
  | document {value : setting.Value} : ¬Occurs words setting.flag → ⟨setting, value⟩ ∈ items →
      HasSource words items setting value
  | builtIn : ¬Occurs words setting.flag → (∀ value, ⟨setting, value⟩ ∉ items) →
      HasSource words items setting setting.builtIn

variable {words : List String} {items : List Item} {setting : Setting} {value : setting.Value}

/-- Without arguments, the value of a setting is the one of a document over the built-in ones. -/
theorem hasSource_nil_iff (hnodup : (items.map Sigma.fst).Nodup) :
    HasSource [] items setting value ↔ value = ((Given.with {} items).over {}).get setting := by
  rw [get_over, get_default]
  constructor
  · intro H
    cases H with
    | flag honly => exact absurd honly.gives.occurs (not_occurs_nil _)
    | document _ hm =>
      rw [get_with_of_mem hnodup hm]
      rfl
    | builtIn _ hnone =>
      rw [get_with_of_not_mem, Given.get_empty]
      · rfl
      · intro hm
        obtain ⟨⟨_, value⟩, hitem, rfl⟩ := List.mem_map.mp hm
        exact hnone value hitem
  · rintro rfl
    by_cases hm : setting ∈ items.map Sigma.fst
    · obtain ⟨⟨_, value⟩, hitem, rfl⟩ := List.mem_map.mp hm
      rw [get_with_of_mem hnodup hitem]
      exact .document (not_occurs_nil _) hitem
    · rw [get_with_of_not_mem hm, Given.get_empty]
      exact .builtIn (not_occurs_nil _) fun value hitem =>
        hm (List.mem_map_of_mem (f := Sigma.fst) hitem)

/-- Where the flag is missing, it does not matter which arguments there are. -/
theorem HasSource.of_not_occurs (H : HasSource [] items setting value)
    (h : ¬Occurs words setting.flag) : HasSource words items setting value := by
  cases H with
  | flag honly => exact absurd honly.gives.occurs (not_occurs_nil _)
  | document _ hm => exact .document h hm
  | builtIn _ hm => exact .builtIn h hm

/-- What is given on the command line wins over a document, and that over what is built in. -/
theorem hasSource_over {given : Given} (hnodup : (items.map Sigma.fst).Nodup)
    (htells : Tells words setting.flag setting.ofWord none (given.get setting)) :
    HasSource words items setting ((given.over ((Given.with {} items).over {})).get setting) := by
  rw [get_over]
  cases hgiven : given.get setting with
  | some value =>
    rw [hgiven] at htells
    cases htells with
    | value honly hconvert => exact .flag honly hconvert
  | none =>
    rw [hgiven] at htells
    cases htells with
    | nothing hnone => exact ((hasSource_nil_iff hnodup).mpr rfl).of_not_occurs hnone

/-! ## Documents that are refused -/

variable {file : File} {text : String} {n : UInt8}

/-- The settings of the file can be loaded. -/
def Accepted (file : File) : Prop := ∃ given, Given.ofFile file = .ok given

theorem initial_of_lt {settings : Settings} (h : settings.initialConfig.toNat < configCount) :
    settings.initial = .ok ⟨settings.initialConfig.toNat, h⟩ := dif_pos h

theorem initial_of_not_lt {settings : Settings} (h : ¬settings.initialConfig.toNat < configCount) :
    settings.initial = .error ⟨.config, settings.initialConfig.toNat⟩ := dif_neg h

/-- A document is accepted if there is a config of the number that it comes to, and refused with
that number otherwise. -/
theorem ofFile_document (htext : file.text = .ok text) (H : IsDocument items text.toList)
    (hn : HasSource [] items .initialConfig n) :
    Given.ofFile file =
      if n.toNat < configCount then .ok (Given.with {} items)
      else .error (.settings (.initialConfig ⟨.config, n.toNat⟩)) := by
  have hn : n = ((Given.with {} items).over {}).initialConfig := (hasSource_nil_iff H.nodup).mp hn
  subst hn
  have hfile : Given.ofFile file = (Given.ofText text).mapError .settings := by
    rw [Given.ofFile, htext]
    rfl
  rw [hfile, Given.ofText, read_document H]
  simp only
  by_cases h : ((Given.with {} items).over {}).initialConfig.toNat < configCount
  · rw [initial_of_lt h, if_pos h]
    rfl
  · rw [initial_of_not_lt h, if_neg h]
    rfl

theorem Accepted.exists_document (htext : file.text = .ok text) (H : Accepted file) :
    ∃ items, IsDocument items text.toList := by
  obtain ⟨given, h⟩ := H
  rw [Given.ofFile, htext] at h
  cases hread : Json.read Given.read text.toList with
  | ok found =>
    obtain ⟨items, hdocument, -⟩ := document_of_read hread
    exact ⟨items, hdocument⟩
  | error fault =>
    have hfault : Given.ofText text = .error (.text fault) := by
      rw [Given.ofText, hread]
    change (Given.ofText text).mapError _ = _ at h
    rw [hfault] at h
    cases h

/-- An engine starts with the config of the settings if there is one of that number. -/
theorem exists_engine {settings : Settings} (h : settings.initialConfig.toNat < configCount)
    (keymap : Keymap) : ∃ engine, Engine.new keymap settings = .ok engine ∧
      engine.config.val = settings.initialConfig.toNat := by
  rw [Engine.new, initial_of_lt h]
  exact ⟨_, rfl, rfl⟩

/-! ## Replays -/

theorem loadSettings_none (files : Files) (given : Given) :
    Command.loadSettings files given none = .ok (given.over {}) := by
  rw [Command.loadSettings, Given.filled, flagDefaults_eq_default]

theorem loadSettings_some {files : Files} {path : String} {inFile : Given}
    (h : Given.ofFile (files path) = .ok inFile) (given : Given) :
    Command.loadSettings files given (some path) = .ok (given.over (inFile.over {})) := by
  rw [Command.loadSettings, h, ← merge_eq_over]
  rfl

/-- The settings of a replay. Without a file, each one comes from the arguments or is built in. A
file that is accepted is a document, and a document is refused if and only if its own initial config
is none of the board. With one that is accepted, each setting comes from the arguments, else from the
document, else it is built in, and any engine starts with the initial config of the document if the
arguments give none. -/
theorem replay_settings_have_their_sources (files : Files) {words : List String}
    {common : CommonFlags} {request : ReplayRequest}
    (h : Invocation.ofArguments words = .ok ⟨common, .replay request⟩) :
    (common.settings = none →
      ∃ settings, Command.loadSettings files request.given common.settings = .ok settings ∧
        ∀ setting, HasSource words [] setting (settings.get setting)) ∧
    ∀ path text, common.settings = some path → (files path).text = .ok text →
      (Accepted (files path) → ∃ items, IsDocument items text.toList) ∧
      ∀ items, IsDocument items text.toList → ∃ n, HasSource [] items .initialConfig n ∧
        (¬Accepted (files path) ↔ ¬n.toNat < configCount) ∧
        (Accepted (files path) →
          ∃ settings, Command.loadSettings files request.given common.settings = .ok settings ∧
            (∀ setting, HasSource words items setting (settings.get setting)) ∧
            (¬Occurs words Setting.initialConfig.flag → ∀ keymap,
              ∃ engine, Engine.new keymap settings = .ok engine ∧
                engine.config.val = n.toNat)) := by
  have htells := tells_of_ofArguments h
  refine ⟨fun hnone => ?_, fun path text hpath htext => ⟨fun H => H.exists_document htext, ?_⟩⟩
  · rw [hnone]
    refine ⟨request.given.over {}, loadSettings_none files request.given, fun setting => ?_⟩
    exact hasSource_over List.nodup_nil (htells setting)
  · intro items hdocument
    have hnodup := hdocument.nodup
    obtain ⟨n, hn⟩ : ∃ n : UInt8, n = ((Given.with {} items).over {}).initialConfig := ⟨_, rfl⟩
    have hsource : HasSource [] items .initialConfig n := (hasSource_nil_iff hnodup).mpr hn
    have hfile := ofFile_document htext hdocument hsource
    have haccepted : Accepted (files path) ↔ n.toNat < configCount := by
      rw [Accepted, hfile]
      split
      · next hlt => exact iff_of_true ⟨_, rfl⟩ hlt
      · next hlt => exact iff_of_false nofun hlt
    refine ⟨n, hsource, not_congr haccepted, fun haccept => ?_⟩
    have hlt := haccepted.mp haccept
    refine ⟨request.given.over ((Given.with {} items).over {}), ?_,
      fun setting => hasSource_over hnodup (htells setting), fun hnone keymap => ?_⟩
    · rw [if_pos hlt] at hfile
      rw [hpath, loadSettings_some hfile]
    · have hgiven : request.given.get .initialConfig = none :=
        (htells .initialConfig).eq_of_not_occurs hnone
      have hinitial : (request.given.over ((Given.with {} items).over {})).initialConfig = n := by
        have hover := get_over request.given ((Given.with {} items).over {}) .initialConfig
        rw [hgiven] at hover
        exact hover.trans hn.symm
      rw [← hinitial] at hlt ⊢
      exact exists_engine hlt keymap

/-- A flag with the built-in value wins over the document, whose other fields stand. -/
theorem replay_settings_have_their_sources_mixed :
    let words := ["--settings=s.json", "replay", "--trace", "t.csv", "--debounce-samples", "5"]
    let text := "\x7b\"x\": [\x7b\"y\": null\x7d, -1.5e3], \"tap_hold_ticks\" : 300,\n" ++
      "\"debounce_samples\": 7, \"initial_config\": 1\x7d"
    let files : Files := fun _ => .content text.toUTF8
    ∃ (common : CommonFlags) (request : ReplayRequest) (items : List Item) (settings : Settings),
      Invocation.ofArguments words = .ok ⟨common, .replay request⟩ ∧
      IsDocument items text.toList ∧
      Command.loadSettings files request.given common.settings = .ok settings ∧
      (∀ setting, HasSource words items setting (settings.get setting)) ∧
      settings = { debounceSamples := 5, tapHoldTicks := 300, initialConfig := 1 } := by
  intro words text files
  let common : CommonFlags := { settings := some "s.json" }
  let request : ReplayRequest :=
    { given := { debounceSamples := some 5 }, trace := "t.csv", tail := 1000 }
  have hwords : Invocation.ofArguments words = .ok ⟨common, .replay request⟩ := by
    decide +kernel
  have htext : (files "s.json").text = .ok text := by
    decide +kernel
  have haccepted : Accepted (files "s.json") :=
    ⟨{ debounceSamples := some 7, tapHoldTicks := some 300, initialConfig := some 1 },
      by decide +kernel⟩
  have hload : Command.loadSettings files request.given common.settings =
      .ok { debounceSamples := 5, tapHoldTicks := 300, initialConfig := 1 } := by
    decide +kernel
  obtain ⟨hdocument, hsources⟩ :=
    (replay_settings_have_their_sources files hwords).2 "s.json" text rfl htext
  obtain ⟨items, hitems⟩ := hdocument haccepted
  obtain ⟨n, -, -, h⟩ := hsources items hitems
  obtain ⟨settings, hsettings, hall, -⟩ := h haccepted
  exact ⟨common, request, items, settings, hwords, hitems, hsettings, hall,
    Except.ok.inj (hsettings.symm.trans hload)⟩

end Settings

end Keystroke
