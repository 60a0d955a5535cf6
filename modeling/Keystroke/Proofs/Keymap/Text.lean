import Keystroke.Keymap.Text
import Keystroke.Proofs.Json.Written
import Keystroke.Proofs.Keymap.Document

/-!
# Keymaps from their own text

Everything a keymap document is made of is read back from the way it is written, from the codes and
indices up to the document. With what a document describes (`Keymap.ofDocument_toDocument`) a keymap
comes back from its text (`Keymap.round_trip`).
-/

namespace Keystroke

open Json

/-! ## Actions -/

theorem KeyCode.reads (code : KeyCode) : Reads KeyCode.read code.toJson code := by
  have hfind : (KeyCode.all.map fun code => Variant.plain code.name code).find?
      (·.name = code.name) = some (.plain code.name code) := by
    rw [List.find?_map]
    change (KeyCode.ofName? code.name).map _ = _
    rw [ofName?_name]
    rfl
  have hwrites : (Variant.plain code.name code).Writes code.toJson code := .nothing rfl
  exact reads_variant hfind hwrites

theorem Chord.reads (chord : Chord) : Reads Chord.read chord.toJson chord := by
  intro depth blanks rest hblanks hrest
  have hcodes := reads_list (fun code (_ : code ∈ chord.codes) => code.reads) depth blanks rest
    hblanks hrest
  rw [Chord.toJson, Chord.read, bind_of_ok hcodes, Chord.ofCodes?_codes]
  rfl

theorem Layer.reads (layer : Layer) : Reads Layer.read (.number layer.val) layer :=
  @reads_index .layer layer

theorem Config.reads (config : Config) : Reads Config.read (.number config.val) config :=
  @reads_index .config config

theorem Key.reads (key : Key) : Reads Key.read (.number key.val) key := @reads_index .key key

theorem CombinedFields.reads (other : Key) (normal joint : KeyCode) :
    Reads CombinedFields.record.read (.object [("other", .number other.val),
      ("normal", normal.toJson), ("combined", joint.toJson)]) (.combined other normal joint) := by
  have hfills : Fills record.fields record.start [("other", .number other.val),
      ("normal", normal.toJson), ("combined", joint.toJson)]
      ⟨some other, some normal, some joint⟩ :=
    .cons rfl rfl (reads_slot other.reads _) <|
      .cons rfl rfl (reads_slot normal.reads _) <|
        .cons rfl rfl (reads_slot joint.reads _) .nil
  exact reads_record hfills rfl

namespace BasicAction

/-- A basic action is written by the variant that its name finds. -/
theorem writes (action : BasicAction) :
    ∃ found, variants.find? (·.name = found.name) = some found ∧
      found.Writes action.toJson action := by
  cases action with
  | noOp => exact ⟨.plain "NoOp" .noOp, rfl, .nothing rfl⟩
  | emit code => exact ⟨.holding "Emit" .emit KeyCode.read, rfl, .holds rfl (code.reads.map _)⟩
  | chord keys => exact ⟨.holding "Chord" .chord Chord.read, rfl, .holds rfl (keys.reads.map _)⟩
  | combined other normal joint =>
    exact ⟨⟨"Combined", _⟩, rfl, .holds rfl (CombinedFields.reads other normal joint)⟩
  | layerHold layer =>
    exact ⟨.holding "LayerHold" .layerHold Layer.read, rfl, .holds rfl (layer.reads.map _)⟩
  | layerToggle layer =>
    exact ⟨.holding "LayerToggle" .layerToggle Layer.read, rfl, .holds rfl (layer.reads.map _)⟩
  | configSwitch config =>
    exact ⟨.holding "ConfigSwitch" .configSwitch Config.read, rfl,
      .holds rfl (config.reads.map _)⟩

theorem reads (action : BasicAction) : Reads BasicAction.read action.toJson action := by
  obtain ⟨found, hfind, hwrites⟩ := action.writes
  exact reads_variant hfind hwrites

end BasicAction

namespace Action

theorem writes_ofBasicVariant {found : Variant BasicAction} {value : Value} {action : BasicAction}
    (H : found.Writes value action) : (ofBasicVariant found).Writes value (.basic action) := by
  obtain ⟨name, content⟩ := found
  cases H with
  | nothing hcontent =>
    cases hcontent
    exact .nothing rfl
  | holds hcontent hread =>
    cases hcontent
    exact .holds rfl (hread.map Action.basic)

/-- The name of a basic variant finds it among the variants of an entry, too. -/
theorem find?_ofBasicVariant {found : Variant BasicAction}
    (h : BasicAction.variants.find? (·.name = found.name) = some found) :
    Action.variants.find? (·.name = (ofBasicVariant found).name) = some (ofBasicVariant found) := by
  have hmap : (BasicAction.variants.map ofBasicVariant).find?
      (·.name = (ofBasicVariant found).name) = some (ofBasicVariant found) := by
    rw [List.find?_map]
    change (BasicAction.variants.find? (·.name = found.name)).map ofBasicVariant = _
    rw [h]
    rfl
  rw [Action.variants, List.find?_append, hmap]
  rfl

theorem reads (action : Action) : Reads Action.read action.toJson action := by
  cases action with
  | basic action =>
    obtain ⟨found, hfind, hwrites⟩ := action.writes
    exact reads_variant (find?_ofBasicVariant hfind) (writes_ofBasicVariant hwrites)
  | tapHold tap hold =>
    have hfills : FillsInOrder PairFields.record.fields PairFields.record.start
        [tap.toJson, hold.toJson] ⟨some tap, some hold⟩ :=
      .cons (reads_slot tap.reads _) (.cons (reads_slot hold.reads _) .nil)
    have hpair : Reads PairFields.record.readList (.list [tap.toJson, hold.toJson])
        (.tapHold tap hold) := reads_readList hfills rfl
    have hwrites : (⟨"TapHold", .holds PairFields.record.readList⟩ : Variant Action).Writes
        (tapHold tap hold).toJson (.tapHold tap hold) := .holds rfl hpair
    exact reads_variant rfl hwrites

end Action

/-! ## Documents -/

theorem LayerEntry.reads (entry : LayerEntry) :
    Reads LayerFields.record.read entry.toJson entry := by
  have hkeys : Reads (list Action.read) (.list (entry.keys.map Action.toJson)) entry.keys :=
    reads_list fun action _ => action.reads
  have hfills : Fills LayerFields.record.fields LayerFields.record.start
      [("layer", .number entry.layer.val), ("keys", .list (entry.keys.map Action.toJson))]
      ⟨some entry.layer, some entry.keys⟩ :=
    .cons rfl rfl (reads_slot entry.layer.reads _) (.cons rfl rfl (reads_slot hkeys _) .nil)
  exact reads_record hfills rfl

theorem ConfigEntry.reads (entry : ConfigEntry) :
    Reads ConfigFields.record.read entry.toJson entry := by
  have hlayers : Reads (list LayerFields.record.read)
      (.list (entry.layers.map LayerEntry.toJson)) entry.layers :=
    reads_list fun layer _ => layer.reads
  have hfills : Fills ConfigFields.record.fields ConfigFields.record.start
      [("name", .string entry.name), ("layers", .list (entry.layers.map LayerEntry.toJson))]
      ⟨some entry.name, some entry.layers⟩ :=
    .cons rfl rfl (reads_slot (reads_string _) _) (.cons rfl rfl (reads_slot hlayers _) .nil)
  exact reads_record hfills rfl

theorem Document.reads (document : Document) : Reads Document.read document.toJson document := by
  have hconfigs : Reads (list ConfigFields.record.read)
      (.list (document.configs.map ConfigEntry.toJson)) document.configs :=
    reads_list fun config _ => config.reads
  have hfills : Fills DocumentFields.record.fields DocumentFields.record.start
      [("name", .string document.name),
        ("configs", .list (document.configs.map ConfigEntry.toJson))]
      ⟨some document.name, some document.configs⟩ :=
    .cons rfl rfl (reads_slot (reads_string _) _) (.cons rfl rfl (reads_slot hconfigs _) .nil)
  exact reads_record hfills rfl

/-- A keymap comes back from the document that describes it and from the text of that document,
under any name. -/
theorem Keymap.round_trip (keymap : Keymap) (name : String) :
    Keymap.ofDocument (keymap.toDocument name) = .ok keymap ∧
      Keymap.ofText (keymap.toText name) = .ok keymap := by
  have hdocument := keymap.ofDocument_toDocument name
  have htext := read_pretty (keymap.toDocument name).reads
  refine ⟨hdocument, ?_⟩
  rw [Keymap.ofText, Keymap.toText, htext]
  simp only [hdocument]

end Keystroke
