import Keystroke.Proofs.Engine.Layers
import Keystroke.Proofs.Settings.Sources

/-!
# How a replay debounces

Two settings decide about debouncing, each with its own sources, and a time wins over a number of
samples. So a time on the command line always takes effect, and a number of samples on the command
line does so unless the document gives a time (`HasDebouncing`, `debounce_flags_take_effect`). An
engine keeps its policy for good (`Engine.debouncePolicy_run`).
-/

namespace Keystroke

/-- No input changes how an engine debounces. -/
theorem Engine.debouncePolicy_run {keymap : Keymap} {settings : Settings} {engine : Engine}
    (h : Engine.new keymap settings = .ok engine) (inputs : List Input) :
    (engine.run inputs).debouncer.policy = settings.debouncePolicy := by
  obtain ⟨config, rfl⟩ := new_eq_ok h
  refine run_induction (P := fun engine => engine.debouncer.policy = settings.debouncePolicy)
    (fun _ _ H => H) (fun engine input H => ?_) (fun engine move H => ?_) (fun _ H => H) rfl inputs
  · cases input <;> exact H
  · rw [make_value, debouncer_carryOut]
    exact H

namespace Settings

open Arguments

/-! ## Settings files -/

variable {files : Files} {words : List String} {common : CommonFlags} {request : ReplayRequest}
  {items : List Item}

/-- What the settings file says. Without a file, that is nothing. -/
inductive FileSays (files : Files) : Option String → List Item → Prop where
  | nothing : FileSays files none []
  | document {path text : String} {items : List Item} : (files path).text = .ok text →
      IsDocument items text.toList → FileSays files (some path) items

theorem FileSays.nodup {path : Option String} (H : FileSays files path items) :
    (items.map Sigma.fst).Nodup := by
  cases H with
  | nothing => exact List.nodup_nil
  | document _ hdocument => exact hdocument.nodup

theorem Accepted.exists_text {file : File} (H : Accepted file) : ∃ text, file.text = .ok text := by
  obtain ⟨given, h⟩ := H
  obtain ⟨text, htext, -⟩ := bind_eq_ok h
  exact ⟨text, htext⟩

/-- An accepted document gives what it says. -/
theorem Accepted.ofFile_eq {file : File} {text : String} (H : Accepted file)
    (htext : file.text = .ok text) (hdocument : IsDocument items text.toList) :
    Given.ofFile file = .ok (Given.with {} items) := by
  have hfile := ofFile_document htext hdocument ((hasSource_nil_iff hdocument.nodup).mpr rfl)
  split at hfile
  · exact hfile
  · obtain ⟨given, h⟩ := H
    rw [h] at hfile
    cases hfile

theorem exists_fileSays {path : Option String}
    (haccepted : ∀ file, path = some file → Accepted (files file)) :
    ∃ items, FileSays files path items := by
  cases path with
  | none => exact ⟨[], .nothing⟩
  | some path =>
    obtain ⟨text, htext⟩ := (haccepted path rfl).exists_text
    obtain ⟨items, hitems⟩ := (haccepted path rfl).exists_document htext
    exact ⟨items, .document htext hitems⟩

/-- What is given comes over what the settings file says, and that over what is built in. -/
theorem FileSays.loadSettings_eq {path : Option String} (H : FileSays files path items)
    (haccepted : ∀ file, path = some file → Accepted (files file)) (given : Given) :
    Command.loadSettings files given path =
      .ok (given.over ((Given.with {} items).over {})) := by
  cases H with
  | nothing => exact loadSettings_none files given
  | document htext hdocument =>
    exact loadSettings_some ((haccepted _ rfl).ofFile_eq htext hdocument) given

/-- If the settings file is accepted, there are settings, and each has its source. -/
theorem exists_settings (h : Invocation.ofArguments words = .ok ⟨common, .replay request⟩)
    (haccepted : ∀ path, common.settings = some path → Accepted (files path)) :
    ∃ settings, Command.loadSettings files request.given common.settings = .ok settings ∧
      ∀ items, FileSays files common.settings items →
        ∀ setting, HasSource words items setting (settings.get setting) := by
  obtain ⟨items, hitems⟩ := exists_fileSays haccepted
  have hload := hitems.loadSettings_eq haccepted request.given
  refine ⟨_, hload, fun items' hitems' setting => ?_⟩
  -- whichever way the document is taken apart, the settings are the same
  rw [← Except.ok.inj ((hitems'.loadSettings_eq haccepted request.given).symm.trans hload)]
  exact hasSource_over hitems'.nodup (tells_of_ofArguments h setting)

/-! ## The policy -/

/-- The source of the policy: the flag of a time, else the time that the document gives, else the
source of the number of samples. -/
inductive HasDebouncing (words : List String) (items : List Item) : DebouncePolicy → Prop where
  | ticksFlag {word : String} {d : Tick} : GivesOnly words Setting.debounceTicks.flag word →
      uint32 word = .ok d → HasDebouncing words items (.ticks d)
  | ticksField {d : Tick} : ¬Occurs words Setting.debounceTicks.flag →
      ⟨.debounceTicks, some d⟩ ∈ items → HasDebouncing words items (.ticks d)
  | samples {n : UInt8} : ¬Occurs words Setting.debounceTicks.flag →
      (∀ d : Tick, ⟨.debounceTicks, some d⟩ ∉ items) →
      HasSource words items .debounceSamples n → HasDebouncing words items (.samples n)

/-- The three sources, for a setting that is known. -/
theorem HasSource.inv {setting : Setting} {value : setting.Value}
    (H : HasSource words items setting value) :
    (∃ word, GivesOnly words setting.flag word ∧ setting.ofWord word = .ok value) ∨
    ¬Occurs words setting.flag ∧
      (⟨setting, value⟩ ∈ items ∨
        (∀ value, ⟨setting, value⟩ ∉ items) ∧ value = setting.builtIn) := by
  cases H with
  | flag honly hconvert => exact .inl ⟨_, honly, hconvert⟩
  | document hnone hm => exact .inr ⟨hnone, .inl hm⟩
  | builtIn hnone hfree => exact .inr ⟨hnone, .inr ⟨hfree, rfl⟩⟩

/-- A document gives a setting one value at most. -/
theorem eq_of_mem_items (hnodup : (items.map Sigma.fst).Nodup) {setting : Setting}
    {value value' : setting.Value} (h : ⟨setting, value⟩ ∈ items) (h' : ⟨setting, value'⟩ ∈ items) :
    value = value' := by
  have hgiven : (Given.with {} items).get setting = some value := get_with_of_mem hnodup h
  rw [get_with_of_mem hnodup h'] at hgiven
  exact (Option.some.inj hgiven).symm

theorem hasDebouncing_of_hasSource {settings : Settings} (hnodup : (items.map Sigma.fst).Nodup)
    (H : ∀ setting, HasSource words items setting (settings.get setting)) :
    HasDebouncing words items settings.debouncePolicy := by
  have hsamples : HasSource words items .debounceSamples settings.debounceSamples :=
    H .debounceSamples
  have hticks : HasSource words items .debounceTicks settings.debounceTicks := H .debounceTicks
  rw [debouncePolicy]
  rcases hticks.inv with ⟨word, honly, hconvert⟩ | ⟨hnone, hm | ⟨hfree, hbuiltIn⟩⟩
  · obtain ⟨d, hd, hticks⟩ := bind_eq_ok hconvert
    rw [← Except.ok.inj hticks]
    exact .ticksFlag honly hd
  · cases hgiven : settings.debounceTicks with
    | some d =>
      rw [hgiven] at hm
      exact .ticksField hnone hm
    | none =>
      rw [hgiven] at hm
      refine .samples hnone (fun d hd => ?_) hsamples
      cases eq_of_mem_items hnodup hm hd
  · rw [hbuiltIn]
    exact .samples hnone (fun d => hfree (some d)) hsamples

/-- The flags for debouncing take effect. If the settings file is accepted or there is none, then the
settings of a replay can be loaded, an engine can be made of them if and only if there is a config of
the number that they give, and however long it runs,

- it debounces by the time on the command line if there is one;
- it debounces by the number of samples on the command line if there is one and no time, unless the
  document gives a time, by which it debounces then. -/
theorem debounce_flags_take_effect (files : Files) {words : List String} {common : CommonFlags}
    {request : ReplayRequest}
    (h : Invocation.ofArguments words = .ok ⟨common, .replay request⟩)
    (haccepted : ∀ path, common.settings = some path → Accepted (files path)) :
    ∃ settings, Command.loadSettings files request.given common.settings = .ok settings ∧
      (∃ items, FileSays files common.settings items) ∧
      ∀ keymap, ((∃ engine, Engine.new keymap settings = .ok engine) ↔
          settings.initialConfig.toNat < configCount) ∧
        ∀ engine, Engine.new keymap settings = .ok engine →
        ∀ inputs items, FileSays files common.settings items →
          (Occurs words Setting.debounceTicks.flag →
            ∃ word d, GivesOnly words Setting.debounceTicks.flag word ∧ uint32 word = .ok d ∧
              (engine.run inputs).debouncer.policy = .ticks d) ∧
          (Occurs words Setting.debounceSamples.flag →
            ¬Occurs words Setting.debounceTicks.flag →
            (∀ d : Tick, ⟨.debounceTicks, some d⟩ ∈ items →
              (engine.run inputs).debouncer.policy = .ticks d) ∧
            ((∀ d : Tick, ⟨.debounceTicks, some d⟩ ∉ items) →
              ∃ word n, GivesOnly words Setting.debounceSamples.flag word ∧ uint8 word = .ok n ∧
                (engine.run inputs).debouncer.policy = .samples n)) := by
  obtain ⟨settings, hload, hsources⟩ := exists_settings h haccepted
  refine ⟨settings, hload, exists_fileSays haccepted, fun keymap => ⟨?_, ?_⟩⟩
  · constructor
    · rintro ⟨engine, hengine⟩
      obtain ⟨config, hconfig, -⟩ := bind_eq_ok hengine
      exact Config.ofNat_eq_ok_iff.mp ⟨config, hconfig⟩
    · intro hlt
      obtain ⟨engine, hengine, -⟩ := exists_engine hlt keymap
      exact ⟨engine, hengine⟩
  · intro engine hengine inputs items hitems
    have hpolicy := Engine.debouncePolicy_run hengine inputs
    have H := hasDebouncing_of_hasSource hitems.nodup (hsources items hitems)
    rw [← hpolicy] at H
    generalize (engine.run inputs).debouncer.policy = policy at H
    cases H with
    | ticksFlag honly hconvert =>
      exact ⟨fun _ => ⟨_, _, honly, hconvert, rfl⟩,
        fun _ hnone => absurd honly.gives.occurs hnone⟩
    | ticksField hnone hm =>
      refine ⟨fun hoccurs => absurd hoccurs hnone, fun _ _ => ⟨fun d hd => ?_, fun hfree => ?_⟩⟩
      · cases eq_of_mem_items hitems.nodup hm hd
        rfl
      · exact absurd hm (hfree _)
    | samples hnone hfree hsamples =>
      refine ⟨fun hoccurs => absurd hoccurs hnone, fun hoccurs _ => ⟨fun d hd => ?_, fun _ => ?_⟩⟩
      · exact absurd hd (hfree d)
      · rcases hsamples.inv with ⟨word, honly, hconvert⟩ | ⟨hnone, -⟩
        · exact ⟨word, _, honly, hconvert, rfl⟩
        · exact absurd hoccurs hnone

/-- A document whose time is null gives none. -/
theorem debounce_flags_take_effect_null :
    let words := ["--settings=s.json", "replay", "--trace", "t.csv", "--debounce-samples", "3"]
    let text := "\x7b\"debounce_samples\": 7, \"debounce_ticks\": null\x7d"
    let files : Files := fun _ => .content text.toUTF8
    ∃ (common : CommonFlags) (request : ReplayRequest) (settings : Settings) (engine : Engine),
      Invocation.ofArguments words = .ok ⟨common, .replay request⟩ ∧
      (∀ path, common.settings = some path → Accepted (files path)) ∧
      Command.loadSettings files request.given common.settings = .ok settings ∧
      Engine.new Keymap.empty settings = .ok engine ∧
      ∀ inputs, (engine.run inputs).debouncer.policy = .samples 3 := by
  intro words text files
  let common : CommonFlags := { settings := some "s.json" }
  let request : ReplayRequest :=
    { given := { debounceSamples := some 3 }, trace := "t.csv", tail := 1000 }
  have hwords : Invocation.ofArguments words = .ok ⟨common, .replay request⟩ := by
    decide +kernel
  have haccepted : ∀ path, common.settings = some path → Accepted (files path) := fun _ _ =>
    ⟨{ debounceSamples := some 7, debounceTicks := some none }, by decide +kernel⟩
  have hload : Command.loadSettings files request.given common.settings =
      .ok { debounceSamples := 3 } := by
    decide +kernel
  obtain ⟨settings, hsettings, ⟨items, hitems⟩, hall⟩ :=
    debounce_flags_take_effect files hwords haccepted
  cases hload.symm.trans hsettings
  obtain ⟨hengine, hpolicy⟩ := hall Keymap.empty
  obtain ⟨engine, hnew⟩ := hengine.mpr (by decide)
  have hfree : ∀ d : Tick, ⟨.debounceTicks, some d⟩ ∉ items := by
    intro d hd
    have hover := Except.ok.inj (hload.symm.trans
      (hitems.loadSettings_eq haccepted request.given))
    have hticks : (none : Option Tick) = ((Given.with {} items).get .debounceTicks).getD none :=
      congrArg Settings.debounceTicks hover
    rw [get_with_of_mem hitems.nodup hd] at hticks
    cases hticks
  refine ⟨common, request, _, engine, hwords, haccepted, hload, hnew, fun inputs => ?_⟩
  obtain ⟨word, n, honly, hn, hsamples⟩ := ((hpolicy engine hnew inputs items hitems).2
    ⟨none, by decide⟩ ((tells_of_ofArguments hwords .debounceTicks).not_occurs)).2 hfree
  have hword := honly.eq_of_gives "3"
    (.inr ⟨["--settings=s.json", "replay", "--trace", "t.csv"], [], rfl⟩)
  rw [← hword] at hn
  rw [hsamples, ← Except.ok.inj hn]
  rfl

/-- A document with a time takes the effect of a number of samples on the command line away. -/
theorem samples_flag_without_effect :
    let words := ["--settings=s.json", "replay", "--trace", "t.csv", "--debounce-samples", "3"]
    let files : Files := fun _ => .content "\x7b\"debounce_ticks\": 40\x7d".toUTF8
    ∃ (common : CommonFlags) (request : ReplayRequest) (settings : Settings) (engine : Engine),
      Invocation.ofArguments words = .ok ⟨common, .replay request⟩ ∧
      (∀ path, common.settings = some path → Accepted (files path)) ∧
      (∃ word, GivesOnly words Setting.debounceSamples.flag word ∧ uint8 word = .ok 3) ∧
      ¬Occurs words Setting.debounceTicks.flag ∧
      Command.loadSettings files request.given common.settings = .ok settings ∧
      Engine.new Keymap.empty settings = .ok engine ∧
      engine.debouncer.policy ≠ .samples 3 := by
  intro words files
  let common : CommonFlags := { settings := some "s.json" }
  let request : ReplayRequest :=
    { given := { debounceSamples := some 3 }, trace := "t.csv", tail := 1000 }
  let settings : Settings := { debounceSamples := 3, debounceTicks := some 40 }
  have hwords : Invocation.ofArguments words = .ok ⟨common, .replay request⟩ := by
    decide +kernel
  have haccepted : ∀ path, common.settings = some path → Accepted (files path) := fun _ _ =>
    ⟨{ debounceTicks := some (some 40) }, by decide +kernel⟩
  have hload : Command.loadSettings files request.given common.settings = .ok settings := by
    decide +kernel
  have hconfig : settings.initialConfig.toNat < configCount := by decide
  obtain ⟨engine, hengine, -⟩ := exists_engine hconfig Keymap.empty
  refine ⟨common, request, settings, engine, hwords, haccepted, ?_, ?_, hload, hengine, ?_⟩
  · exact (tells_of_ofArguments hwords .debounceSamples).givesOnly
  · exact (tells_of_ofArguments hwords .debounceTicks).not_occurs
  · have hpolicy := Engine.debouncePolicy_run hengine []
    change engine.debouncer.policy = .ticks 40 at hpolicy
    rw [hpolicy]
    exact nofun

end Settings

end Keystroke
