import Mathlib
import Keystroke.Keymap.Document

/-!
# What a keymap document describes

A document is read entry by entry and refused at the first entry that does not stand with those
before it. `addLayers_append` and `addConfigs_append` read past a part that is sound; with that, a
document describes a keymap if it is `WellFormed`, and else its `FirstFault` is reported
(`ofDocument_eq_ok_iff`, `ofDocument_eq_error_iff`). The keymap is determined by what the document
says of each key, in whatever order the layers are listed. The document of a keymap leaves out
layers without an entry, which are transparent in any case, so the keymap comes back whole
(`ofDocument_toDocument`).
-/

namespace Keystroke

namespace LayerEntry

/-- Layer entries that can stand together in a config: each is for a layer of its own, and none has
more keys than the board. -/
structure Sound (entries : List LayerEntry) : Prop where
  nodup : (entries.map (·.layer)).Nodup
  fits : ∀ entry ∈ entries, entry.keys.length ≤ keyCount

/-- What is wrong with a layer entry that follows `earlier` ones in its config. An entry that is
also too long is reported for its layer. -/
inductive Fault (config : Config) (name : String) (earlier : List LayerEntry) (entry : LayerEntry) :
    DocumentError → Prop where
  | twice : entry.layer ∈ earlier.map (·.layer) →
    Fault config name earlier entry (.layerTwice config name entry.layer)
  | tooLong : entry.layer ∉ earlier.map (·.layer) → keyCount < entry.keys.length →
    Fault config name earlier entry (.tooManyKeys config entry.layer entry.keys.length)

variable {config : Config} {name : String} {entries earlier : List LayerEntry} {entry : LayerEntry}

instance (entries : List LayerEntry) : Decidable (Sound entries) :=
  decidable_of_iff ((entries.map (·.layer)).Nodup ∧ ∀ entry ∈ entries, entry.keys.length ≤ keyCount)
    ⟨fun h => ⟨h.1, h.2⟩, fun h => ⟨h.nodup, h.fits⟩⟩

theorem sound_nil : Sound [] := ⟨List.nodup_nil, List.forall_mem_nil _⟩

theorem Sound.of_cons (H : Sound (entry :: entries)) :
    entry.layer ∉ entries.map (·.layer) ∧ entry.keys.length ≤ keyCount ∧ Sound entries := by
  obtain ⟨hentry, hnodup⟩ := List.nodup_cons.mp H.nodup
  exact ⟨hentry, H.fits entry List.mem_cons_self, hnodup,
    fun other hm => H.fits other (List.mem_cons_of_mem _ hm)⟩

/-- An entry stands with sound ones before it, or it has a fault. -/
theorem Sound.concat_or_fault (H : Sound earlier) (config : Config) (name : String)
    (entry : LayerEntry) :
    Sound (earlier ++ [entry]) ∨ ∃ error, Fault config name earlier entry error := by
  by_cases htwice : entry.layer ∈ earlier.map (·.layer)
  · exact .inr ⟨_, .twice htwice⟩
  · by_cases hlong : keyCount < entry.keys.length
    · exact .inr ⟨_, .tooLong htwice hlong⟩
    · refine .inl ⟨?_, fun other hm => ?_⟩
      · rw [List.map_append, List.map_singleton]
        exact List.nodup_append_comm.mp (List.nodup_cons.mpr ⟨htwice, H.nodup⟩)
      · rcases List.mem_append.mp hm with hm | hm
        · exact H.fits other hm
        · obtain rfl := List.mem_singleton.mp hm
          exact Nat.le_of_not_lt hlong

/-- Entries are sound, or one of them is the first with a fault. -/
theorem sound_or_fault (config : Config) (name : String) (entries : List LayerEntry) :
    Sound entries ∨ ∃ earlier entry later error, entries = earlier ++ entry :: later ∧
      Sound earlier ∧ Fault config name earlier entry error := by
  induction entries using List.reverseRecOn with
  | nil => exact .inl sound_nil
  | append_singleton earlier entry ih =>
    rcases ih with H | ⟨before, first, later, error, rfl, H, hfault⟩
    · rcases H.concat_or_fault config name entry with H' | ⟨error, hfault⟩
      · exact .inl H'
      · exact .inr ⟨earlier, entry, [], error, rfl, H, hfault⟩
    · exact .inr ⟨before, first, later ++ [entry], error, by simp, H, hfault⟩

end LayerEntry

open LayerEntry

namespace Document

/-- There are no more configs than can be switched between, and the layers of each are sound. -/
structure WellFormed (document : Document) : Prop where
  count : document.configs.length ≤ configCount
  sound : ∀ listed ∈ document.configs, Sound listed.layers

/-- A keymap is what a document says: the keys of a layer that is listed have their actions in
order, and all other keys are transparent. -/
structure Describes (document : Document) (keymap : Keymap) : Prop where
  listed : ∀ (config : Config) (listed : ConfigEntry), document.configs[config.val]? = some listed →
    ∀ entry ∈ listed.layers, ∀ key : Key,
      keymap.lookup config entry.layer key = entry.keys[key.val]?.getD .noOp
  unlisted : ∀ (config : Config) (layer : Layer),
    (∀ listed, document.configs[config.val]? = some listed →
      layer ∉ listed.layers.map (·.layer)) →
    ∀ key : Key, keymap.lookup config layer key = .noOp

/-- What a document is refused for: too many configs, or else the first entry with a fault. -/
inductive FirstFault (document : Document) : DocumentError → Prop where
  | count : configCount < document.configs.length →
    FirstFault document (.tooManyConfigs document.configs.length)
  | entry {before after : List ConfigEntry} {config : Config} {name : String}
    {earlier later : List LayerEntry} {entry : LayerEntry} {error : DocumentError} :
    document.configs.length ≤ configCount →
    document.configs = before ++ ⟨name, earlier ++ entry :: later⟩ :: after →
    config.val = before.length → (∀ listed ∈ before, Sound listed.layers) → Sound earlier →
    Fault config name earlier entry error → FirstFault document error

/-- The configs are the same up to the order of their layers. -/
def SameUpToOrder (document other : Document) : Prop :=
  List.Forall₂ (fun listed listed' : ConfigEntry => listed.layers.Perm listed'.layers)
    document.configs other.configs

end Document

namespace Keymap

variable {config other : Config} {name : String} {keymap : Keymap} {seen : List Layer}
  {entries earlier later : List LayerEntry} {entry : LayerEntry} {layer : Layer} {key : Key}
  {error : DocumentError}

/-! ## The layers of a config -/

/-- Puts layers in their places, whatever stands there. -/
def putLayers (config : Config) (keymap : Keymap) (entries : List LayerEntry) : Keymap :=
  entries.foldl
    (fun keymap entry => keymap.setLayer config entry.layer (LayerMap.ofList entry.keys)) keymap

theorem addLayers_append (H : Sound earlier) (hseen : ∀ entry ∈ earlier, entry.layer ∉ seen)
    (entries : List LayerEntry) : addLayers config name keymap seen (earlier ++ entries) =
      addLayers config name (putLayers config keymap earlier)
        ((earlier.map (·.layer)).reverse ++ seen) entries := by
  induction earlier generalizing keymap seen with
  | nil => rfl
  | cons entry earlier ih =>
    obtain ⟨hfirst, hfits, hrest⟩ := H.of_cons
    have hnew : seen.contains entry.layer = false := by
      rw [Bool.eq_false_iff, ne_eq, List.contains_iff_mem]
      exact hseen entry List.mem_cons_self
    have hseen' : ∀ other ∈ earlier, other.layer ∉ entry.layer :: seen := by
      intro other hm hmem
      rcases List.mem_cons.mp hmem with he | hmem
      · exact hfirst (he ▸ List.mem_map_of_mem hm)
      · exact hseen other (List.mem_cons_of_mem _ hm) hmem
    rw [List.cons_append, addLayers, hnew, if_neg Bool.false_ne_true, if_neg (Nat.not_lt.mpr hfits),
      ih hrest hseen', List.map_cons, List.reverse_cons, List.append_assoc]
    rfl

theorem addLayers_of_sound (H : Sound entries) :
    addLayers config name keymap [] entries = .ok (putLayers config keymap entries) := by
  conv_lhs => rw [← List.append_nil entries]
  rw [addLayers_append H (fun _ _ => List.not_mem_nil), addLayers]

theorem addLayers_of_fault (H : Sound earlier) (h : Fault config name earlier entry error) :
    addLayers config name keymap [] (earlier ++ entry :: later) = .error error := by
  rw [addLayers_append H (fun _ _ => List.not_mem_nil), List.append_nil, addLayers]
  have hcontains : (earlier.map (·.layer)).reverse.contains entry.layer = true ↔
      entry.layer ∈ earlier.map (·.layer) := by
    rw [List.contains_iff_mem, List.mem_reverse]
  cases h with
  | twice htwice => rw [if_pos (hcontains.mpr htwice)]
  | tooLong hnew hlong => rw [if_neg (mt hcontains.mp hnew), if_pos hlong]

/-- A layer that is not among those that are put stays. -/
theorem layer_putLayers_of_notMem (h : config = other → layer ∉ entries.map (·.layer)) :
    (putLayers config keymap entries).layer other layer = keymap.layer other layer := by
  induction entries generalizing keymap with
  | nil => rfl
  | cons entry entries ih =>
    have hrest : config = other → layer ∉ entries.map (·.layer) :=
      fun he hm => h he (List.mem_cons_of_mem _ hm)
    have hentry : ¬(config = other ∧ entry.layer = layer) := by
      rintro ⟨he, rfl⟩
      exact h he List.mem_cons_self
    exact (ih hrest).trans (by rw [layer_setLayer, if_neg hentry])

theorem layer_putLayers_of_mem (H : Sound entries) (hm : entry ∈ entries) :
    (putLayers config keymap entries).layer config entry.layer = LayerMap.ofList entry.keys := by
  induction entries generalizing keymap with
  | nil => cases hm
  | cons first entries ih =>
    obtain ⟨hfirst, -, hrest⟩ := H.of_cons
    rcases List.mem_cons.mp hm with rfl | hm
    · exact (layer_putLayers_of_notMem fun _ => hfirst).trans
        (by rw [layer_setLayer, if_pos ⟨rfl, rfl⟩])
    · exact ih hrest hm

/-! ## The configs of a document -/

/-- Puts the layers of configs in their places. -/
def putConfigs (keymap : Keymap) (numbered : List (Config × ConfigEntry)) : Keymap :=
  numbered.foldl (fun keymap pair => putLayers pair.1 keymap pair.2.layers) keymap

variable {numbered rest : List (Config × ConfigEntry)} {listed : ConfigEntry}

theorem addConfigs_append (H : ∀ pair ∈ numbered, Sound pair.2.layers) :
    addConfigs keymap (numbered ++ rest) = addConfigs (putConfigs keymap numbered) rest := by
  induction numbered generalizing keymap with
  | nil => rfl
  | cons pair numbered ih =>
    have hlayers : addLayers pair.1 pair.2.name keymap [] pair.2.layers =
        .ok (putLayers pair.1 keymap pair.2.layers) :=
      addLayers_of_sound (H pair List.mem_cons_self)
    rw [List.cons_append, addConfigs, hlayers]
    exact ih fun other hm => H other (List.mem_cons_of_mem _ hm)

theorem addConfigs_of_sound (H : ∀ pair ∈ numbered, Sound pair.2.layers) :
    addConfigs keymap numbered = .ok (putConfigs keymap numbered) := by
  conv_lhs => rw [← List.append_nil numbered]
  rw [addConfigs_append H, addConfigs]

theorem layer_putConfigs_of_notMem
    (h : ∀ pair ∈ numbered, pair.1 = config → layer ∉ pair.2.layers.map (·.layer)) :
    (putConfigs keymap numbered).layer config layer = keymap.layer config layer := by
  induction numbered generalizing keymap with
  | nil => rfl
  | cons pair numbered ih =>
    exact (ih fun other hm => h other (List.mem_cons_of_mem _ hm)).trans
      (layer_putLayers_of_notMem (h pair List.mem_cons_self))

theorem layer_putConfigs_of_mem (hn : (numbered.map (·.1)).Nodup)
    (hm : (config, listed) ∈ numbered) (H : Sound listed.layers) (hentry : entry ∈ listed.layers) :
    (putConfigs keymap numbered).layer config entry.layer = LayerMap.ofList entry.keys := by
  induction numbered generalizing keymap with
  | nil => cases hm
  | cons first numbered ih =>
    obtain ⟨hfirst, hnodup⟩ := List.nodup_cons.mp hn
    rcases List.mem_cons.mp hm with rfl | hm
    · have hkept : ∀ pair ∈ numbered, pair.1 = config →
          entry.layer ∉ pair.2.layers.map (·.layer) :=
        fun pair hpair he => absurd (List.mem_map.mpr ⟨pair, hpair, he⟩) hfirst
      exact (layer_putConfigs_of_notMem hkept).trans (layer_putLayers_of_mem H hentry)
    · exact ih hnodup hm

/-! ## Documents -/

theorem mem_zip_all {configs : List ConfigEntry} :
    (config, listed) ∈ Config.all.zip configs ↔ configs[config.val]? = some listed := by
  have hnumber (i : Nat) : Config.all[i]? = some config ↔ i = config.val := by
    rw [List.getElem?_eq_some_iff, Config.all]
    simp only [List.getElem_finRange, List.length_finRange, Fin.ext_iff]
    exact ⟨fun h => h.2, fun h => ⟨h ▸ config.isLt, h⟩⟩
  rw [List.mem_iff_getElem?]
  simp only [List.getElem?_zip_eq_some, hnumber]
  exact ⟨fun ⟨_, h, hlisted⟩ => h ▸ hlisted, fun h => ⟨config.val, rfl, h⟩⟩

theorem nodup_zip_all (configs : List ConfigEntry) :
    ((Config.all.zip configs).map (·.1)).Nodup := by
  rw [List.zip_eq_zip_take_min, List.map_fst_zip]
  · exact (List.nodup_finRange configCount).sublist (List.take_sublist _ _)
  · simp

/-- The configs before one of them are numbered before it. -/
theorem zip_all_append {before after : List ConfigEntry} (h : config.val = before.length) :
    ∃ numbers more : List Config, Config.all.zip (before ++ listed :: after) =
      numbers.zip before ++ (config, listed) :: more.zip after := by
  have hlt : config.val < Config.all.length := by simp [Config.all]
  have hall : Config.all = Config.all.take config.val ++ config ::
      Config.all.drop (config.val + 1) := by
    have hget : Config.all[config.val] = config := List.getElem_finRange _
    have hdrop := List.drop_eq_getElem_cons hlt
    rw [hget] at hdrop
    rw [← hdrop, List.take_append_drop]
  have hlength : (Config.all.take config.val).length = before.length := by
    rw [List.length_take_of_le hlt.le, h]
  refine ⟨Config.all.take config.val, Config.all.drop (config.val + 1), ?_⟩
  conv_lhs => rw [hall]
  rw [List.zip_append hlength, List.zip_cons_cons]

/-- Configs are sound, or one of them is the first that is not. -/
theorem sound_or_first (configs : List ConfigEntry) :
    (∀ listed ∈ configs, Sound listed.layers) ∨ ∃ before listed after,
      configs = before ++ listed :: after ∧ (∀ other ∈ before, Sound other.layers) ∧
        ¬Sound listed.layers := by
  induction configs with
  | nil => exact .inl (List.forall_mem_nil _)
  | cons first configs ih =>
    by_cases hfirst : Sound first.layers
    · refine ih.imp (fun hall => List.forall_mem_cons.mpr ⟨hfirst, hall⟩) ?_
      rintro ⟨before, listed, after, rfl, hbefore, hlisted⟩
      exact ⟨first :: before, listed, after, rfl, List.forall_mem_cons.mpr ⟨hfirst, hbefore⟩,
        hlisted⟩
    · exact .inr ⟨[], first, configs, rfl, List.forall_mem_nil _, hfirst⟩

end Keymap

namespace Document

variable {document other : Document} {keymap keymap' : Keymap} {error : DocumentError}

instance (document : Document) : Decidable document.WellFormed :=
  decidable_of_iff
    (document.configs.length ≤ configCount ∧ ∀ listed ∈ document.configs, Sound listed.layers)
    ⟨fun h => ⟨h.1, h.2⟩, fun h => ⟨h.count, h.sound⟩⟩

theorem wellFormed_or_fault (document : Document) :
    document.WellFormed ∨ ∃ error, document.FirstFault error := by
  by_cases hcount : document.configs.length ≤ configCount
  · rcases Keymap.sound_or_first document.configs with
      hall | ⟨before, ⟨name, layers⟩, after, hsplit, hbefore, hlisted⟩
    · exact .inl ⟨hcount, hall⟩
    · have hnumber : before.length < configCount := by
        rw [hsplit, List.length_append, List.length_cons] at hcount
        omega
      obtain ⟨earlier, entry, later, error, rfl, hearlier, hfault⟩ :=
        (sound_or_fault ⟨before.length, hnumber⟩ name layers).resolve_left hlisted
      exact .inr ⟨error, .entry hcount hsplit rfl hbefore hearlier hfault⟩
  · exact .inr ⟨_, .count (Nat.lt_of_not_le hcount)⟩

/-- A document describes one keymap at most. -/
theorem Describes.unique (H : document.Describes keymap) (H' : document.Describes keymap') :
    keymap = keymap' := by
  apply Keymap.ext_lookup
  intro config layer key
  by_cases hlisted : ∃ listed, document.configs[config.val]? = some listed ∧
      layer ∈ listed.layers.map (·.layer)
  · obtain ⟨listed, hconfig, hlayer⟩ := hlisted
    obtain ⟨entry, hentry, rfl⟩ := List.mem_map.mp hlayer
    rw [H.listed config listed hconfig entry hentry, H'.listed config listed hconfig entry hentry]
  · have hnone : ∀ listed, document.configs[config.val]? = some listed →
        layer ∉ listed.layers.map (·.layer) := fun listed h hm => hlisted ⟨listed, h, hm⟩
    rw [H.unlisted config layer hnone, H'.unlisted config layer hnone]

/-! ## The order of the layers -/

theorem SameUpToOrder.symm (h : document.SameUpToOrder other) : other.SameUpToOrder document :=
  (List.Forall₂.flip h).imp fun _ _ => List.Perm.symm

/-- A config has its counterpart at the same place. -/
theorem SameUpToOrder.exists_perm (h : document.SameUpToOrder other) {i : Nat}
    {listed : ConfigEntry} (hi : document.configs[i]? = some listed) :
    ∃ listed', other.configs[i]? = some listed' ∧ listed.layers.Perm listed'.layers := by
  rw [SameUpToOrder] at h
  generalize document.configs = configs at h hi
  generalize other.configs = others at h
  induction h generalizing i with
  | nil => cases hi
  | cons hperm _ ih =>
    cases i with
    | zero =>
      cases hi
      exact ⟨_, rfl, hperm⟩
    | succ i => exact ih hi

theorem SameUpToOrder.wellFormed (h : document.SameUpToOrder other) (H : document.WellFormed) :
    other.WellFormed := by
  refine ⟨(List.Forall₂.length_eq h).symm.trans_le H.count, fun listed' hm => ?_⟩
  obtain ⟨i, hi⟩ := List.mem_iff_getElem?.mp hm
  obtain ⟨listed, hlisted, hperm⟩ := h.symm.exists_perm hi
  have hsound := H.sound listed (List.mem_of_getElem? hlisted)
  refine ⟨(hperm.map (·.layer)).nodup_iff.mpr hsound.nodup, fun entry hentry => ?_⟩
  exact hsound.fits entry (hperm.mem_iff.mp hentry)

theorem SameUpToOrder.describes (h : document.SameUpToOrder other) (H : document.Describes keymap) :
    other.Describes keymap where
  listed config listed' hlisted' entry hentry key := by
    obtain ⟨listed, hlisted, hperm⟩ := h.symm.exists_perm hlisted'
    exact H.listed config listed hlisted entry (hperm.mem_iff.mp hentry) key
  unlisted config layer hnone key := by
    refine H.unlisted config layer (fun listed hlisted hm => ?_) key
    obtain ⟨listed', hlisted', hperm⟩ := h.exists_perm hlisted
    exact hnone listed' hlisted' ((hperm.map (·.layer)).mem_iff.mp hm)

end Document

namespace Keymap

variable {document : Document} {keymap : Keymap} {config : Config} {layer : Layer}
  {error : DocumentError}

/-! ## What is accepted and what is refused -/

theorem ofDocument_of_wellFormed (H : document.WellFormed) :
    ∃ keymap, ofDocument document = .ok keymap ∧ document.Describes keymap := by
  have hsound : ∀ pair ∈ Config.all.zip document.configs, Sound pair.2.layers :=
    fun pair hm => H.sound pair.2 (List.of_mem_zip hm).2
  refine ⟨putConfigs empty (Config.all.zip document.configs), ?_, ?_, ?_⟩
  · rw [ofDocument, if_neg (Nat.not_lt.mpr H.count), addConfigs_of_sound hsound]
  · intro config listed hlisted entry hentry key
    rw [lookup, layer_putConfigs_of_mem (nodup_zip_all _) (mem_zip_all.mpr hlisted)
      (H.sound listed (List.mem_of_getElem? hlisted)) hentry, LayerMap.ofList, Slots.getElem_ofFn]
  · intro config layer hnone key
    have hkept : ∀ pair ∈ Config.all.zip document.configs, pair.1 = config →
        layer ∉ pair.2.layers.map (·.layer) := by
      rintro ⟨number, listed⟩ hm rfl
      exact hnone listed (mem_zip_all.mp hm)
    rw [lookup, layer_putConfigs_of_notMem hkept]
    exact lookup_empty config layer key

theorem ofDocument_of_fault (h : document.FirstFault error) : ofDocument document = .error error := by
  cases h with
  | count hcount => rw [ofDocument, if_pos hcount]
  | @entry before _ _ _ _ _ _ _ hcount hsplit hnumber hbefore hearlier hfault =>
    obtain ⟨numbers, more, hzip⟩ := zip_all_append hnumber
    have hsound : ∀ pair ∈ numbers.zip before, Sound pair.2.layers :=
      fun pair hm => hbefore pair.2 (List.of_mem_zip hm).2
    rw [ofDocument, if_neg (Nat.not_lt.mpr hcount), hsplit, hzip, addConfigs_append hsound,
      addConfigs, addLayers_of_fault hearlier hfault]
    rfl

/-- A keymap comes of the well-formed documents that describe it. -/
theorem ofDocument_eq_ok_iff :
    ofDocument document = .ok keymap ↔ document.WellFormed ∧ document.Describes keymap := by
  constructor
  · intro h
    rcases document.wellFormed_or_fault with H | ⟨error, hfault⟩
    · obtain ⟨found, hfound, hdescribes⟩ := ofDocument_of_wellFormed H
      cases hfound.symm.trans h
      exact ⟨H, hdescribes⟩
    · rw [ofDocument_of_fault hfault] at h
      cases h
  · rintro ⟨H, hdescribes⟩
    obtain ⟨found, hfound, hfound'⟩ := ofDocument_of_wellFormed H
    rw [hfound, hfound'.unique hdescribes]

theorem ofDocument_eq_error_iff :
    ofDocument document = .error error ↔ document.FirstFault error := by
  refine ⟨fun h => ?_, ofDocument_of_fault⟩
  rcases document.wellFormed_or_fault with H | ⟨found, hfault⟩
  · obtain ⟨keymap, hkeymap, -⟩ := ofDocument_of_wellFormed H
    rw [hkeymap] at h
    cases h
  · cases (ofDocument_of_fault hfault).symm.trans h
    exact hfault

/-- A document is accepted just if it is well-formed, and then the keymap is what it says, in
whatever order the layers are listed. Else it is refused for its first fault. -/
theorem document_is_read_faithfully (document : Document) :
    ((∃ keymap, ofDocument document = .ok keymap) ↔ document.WellFormed) ∧
    (∀ keymap, ofDocument document = .ok keymap → document.Describes keymap ∧
      ∀ other, document.SameUpToOrder other → ofDocument other = .ok keymap) ∧
    ∀ error, ofDocument document = .error error ↔ document.FirstFault error := by
  refine ⟨⟨?_, fun H => ?_⟩, fun keymap h => ?_, fun error => ofDocument_eq_error_iff⟩
  · rintro ⟨keymap, h⟩
    exact (ofDocument_eq_ok_iff.mp h).1
  · obtain ⟨keymap, h, -⟩ := ofDocument_of_wellFormed H
    exact ⟨keymap, h⟩
  · obtain ⟨H, hdescribes⟩ := ofDocument_eq_ok_iff.mp h
    exact ⟨hdescribes, fun other horder =>
      ofDocument_eq_ok_iff.mpr ⟨horder.wellFormed H, horder.describes hdescribes⟩⟩

/-- A config whose layers are listed out of order, and a document with an entry that is too long for
a layer that is listed twice, before another such layer. -/
theorem document_is_read_faithfully_out_of_order :
    let base : LayerEntry := ⟨0, [.emit .a, .noOp, .emit .c]⟩
    let upper : LayerEntry := ⟨2, [.noOp, .emit .b]⟩
    let long : LayerEntry := ⟨2, List.replicate 43 .noOp⟩
    let document : Document := ⟨"board", [⟨"", []⟩, ⟨"main", [upper, base]⟩]⟩
    let sorted : Document := ⟨"board", [⟨"", []⟩, ⟨"main", [base, upper]⟩]⟩
    let faulty : Document := ⟨"", [⟨"first", [base]⟩, ⟨"second", [upper, long, base, base]⟩]⟩
    (∃ keymap, ofDocument document = .ok keymap ∧ keymap.lookup 1 2 1 = .emit .b ∧
      keymap.lookup 1 0 2 = .emit .c ∧ keymap.lookup 1 2 41 = .noOp ∧
      keymap.lookup 0 2 1 = .noOp ∧ ofDocument sorted = .ok keymap) ∧
    ofDocument faulty = .error (.layerTwice 1 "second" 2) := by
  intro base upper long document sorted faulty
  obtain ⟨haccepted, hmeaning, -⟩ := document_is_read_faithfully document
  obtain ⟨keymap, hkeymap⟩ := haccepted.mpr (by decide)
  obtain ⟨hdescribes, horder⟩ := hmeaning keymap hkeymap
  have hsorted : document.SameUpToOrder sorted :=
    .cons (.refl _) (.cons (.swap base upper []) .nil)
  have hfault : faulty.FirstFault (.layerTwice 1 "second" 2) :=
    @Document.FirstFault.entry faulty [⟨"first", [base]⟩] [] 1 "second" [upper] [base, base] long _
      (by decide) rfl rfl (by decide) (by decide) (.twice (by decide))
  refine ⟨⟨keymap, hkeymap, ?_, ?_, ?_, ?_, horder sorted hsorted⟩,
    ((document_is_read_faithfully faulty).2.2 _).mpr hfault⟩
  · exact hdescribes.listed 1 _ rfl upper (by decide) 1
  · exact hdescribes.listed 1 _ rfl base (by decide) 2
  · exact hdescribes.listed 1 _ rfl upper (by decide) 41
  · exact hdescribes.unlisted 0 2 (fun listed hlisted => by cases hlisted; decide) 1

/-! ## The document of a keymap -/

/-- The entry of a layer in the document of a keymap. -/
def layerEntry (keymap : Keymap) (config : Config) (layer : Layer) : LayerEntry where
  layer
  keys := (keymap.layer config layer).toList

/-- The entry of a config in the document of a keymap. -/
def configEntry (keymap : Keymap) (config : Config) : ConfigEntry where
  name := "config_" ++ toString config.val
  layers := (keymap.usedLayers config).map (keymap.layerEntry config)

theorem toDocument_eq (keymap : Keymap) (name : String) :
    keymap.toDocument name = ⟨name, Config.all.map keymap.configEntry⟩ := rfl

theorem map_layer_configEntry (keymap : Keymap) (config : Config) :
    (keymap.configEntry config).layers.map (·.layer) = keymap.usedLayers config := by
  rw [configEntry, List.map_map]
  exact List.map_id _

theorem nodup_usedLayers (keymap : Keymap) (config : Config) :
    (keymap.usedLayers config).Nodup :=
  (List.nodup_finRange layerCount).filter _

/-- A layer that is not in use has no entry of its own. -/
theorem lookup_of_not_used (h : layer ∉ keymap.usedLayers config) (key : Key) :
    keymap.lookup config layer key = .noOp := by
  have hempty : keymap.isLayerEmpty config layer = true := by
    rw [← Bool.not_eq_false]
    intro hne
    exact h (List.mem_filter.mpr ⟨Layer.mem_all layer, by simp [hne]⟩)
  exact isLayerEmpty_iff.mp hempty key

theorem sound_configEntry (keymap : Keymap) (config : Config) :
    Sound (keymap.configEntry config).layers := by
  refine ⟨?_, fun entry hm => ?_⟩
  · rw [map_layer_configEntry]
    exact keymap.nodup_usedLayers config
  · obtain ⟨layer, -, rfl⟩ := List.mem_map.mp hm
    simp [layerEntry, Slots.toList]

theorem wellFormed_toDocument (keymap : Keymap) (name : String) :
    (keymap.toDocument name).WellFormed := by
  refine ⟨by simp [toDocument_eq, Config.all], fun listed hm => ?_⟩
  obtain ⟨config, -, rfl⟩ := List.mem_map.mp hm
  exact keymap.sound_configEntry config

theorem describes_toDocument (keymap : Keymap) (name : String) :
    (keymap.toDocument name).Describes keymap := by
  have hconfig (config : Config) :
      (keymap.toDocument name).configs[config.val]? = some (keymap.configEntry config) := by
    simp [toDocument_eq, Config.all]
  refine ⟨fun config listed hlisted entry hentry key => ?_, fun config layer hnone key => ?_⟩
  · cases (hconfig config).symm.trans hlisted
    obtain ⟨layer, -, rfl⟩ := List.mem_map.mp hentry
    simp [layerEntry, Slots.toList_eq_map, lookup]
  · have hunused := hnone _ (hconfig config)
    rw [map_layer_configEntry] at hunused
    exact lookup_of_not_used hunused key

/-- A keymap is what its document describes, whatever name the document has. -/
theorem ofDocument_toDocument (keymap : Keymap) (name : String) :
    ofDocument (keymap.toDocument name) = .ok keymap :=
  ofDocument_eq_ok_iff.mpr ⟨keymap.wellFormed_toDocument name, keymap.describes_toDocument name⟩

end Keymap

end Keystroke
