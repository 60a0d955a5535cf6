import Mathlib
import Keystroke.Keymap.Audit

/-!
# What the audit finds

The rules of authoring said on their own (`Keymap.Violates`), and that the audit reports each
violation of them once and in order (`Keymap.problems_eq_map_violations`). So a keymap is accepted
just if no rule is violated (`Keymap.validate_eq_ok_iff_not_violates`). Only the parts of an entry
count: a layer action on an upper layer is as good as an emission, whether that layer has entries or
not (`Keymap.problems_congr`).
-/

namespace Keystroke

/-- A half of a tap-hold pair. A basic action is its own first half. -/
inductive Half where
  | first
  | second
  deriving DecidableEq, Repr

namespace Half

def all : List Half := [first, second]

/-- The first half comes before the second. -/
def rank : Half → Nat
  | first => 0
  | second => 1

@[simp] theorem mem_all (half : Half) : half ∈ all := by
  cases half <;> decide

theorem pairwise_rank_all : all.Pairwise (fun half other => half.rank < other.rank) := by decide

end Half

namespace Action

/-- The basic action that a half of an entry is. -/
def half? : Action → Half → Option BasicAction
  | basic action, .first => some action
  | basic _, .second => none
  | tapHold tap _, .first => some tap
  | tapHold _ hold, .second => some hold

theorem parts_eq_filterMap (action : Action) : action.parts = Half.all.filterMap action.half? := by
  cases action <;> rfl

theorem mem_parts {action : Action} {part : BasicAction} :
    part ∈ action.parts ↔ ∃ half, action.half? half = some part := by
  rw [parts_eq_filterMap, List.mem_filterMap]
  simp only [Half.mem_all, true_and]

/-- Some parts of an entry, counted by their halves. -/
theorem filter_parts_map {α : Type} (action : Action) (p : BasicAction → Bool) (a : α) :
    (action.parts.filter p).map (fun _ => a) =
      (Half.all.filter fun half => (action.half? half).any p).map fun _ => a := by
  cases action with
  | basic action => cases h : p action <;> simp [parts, Half.all, half?, h]
  | tapHold tap hold =>
    cases htap : p tap <;> cases hhold : p hold <;> simp [parts, Half.all, half?, htap, hhold]

/-- No mistake lies in an entry of a key. -/
structure Sound (action : Action) (key : Key) : Prop where
  notEmpty : action ≠ .tapHold .noOp .noOp
  notSelf : ∀ part ∈ action.parts, ∀ normal joint, part ≠ .combined key normal joint
  notBase : ∀ part ∈ action.parts,
    part ≠ .layerHold Layer.base ∧ part ≠ .layerToggle Layer.base

end Action

theorem BasicAction.watches_iff {action : BasicAction} {key : Key} :
    action.watches key = true ↔ ∃ normal joint, action = .combined key normal joint := by
  cases action <;> simp [watches]

theorem BasicAction.layer?_eq_some_iff {action : BasicAction} {layer : Layer} :
    action.layer? = some layer ↔ action = .layerHold layer ∨ action = .layerToggle layer := by
  cases action <;> simp [layer?]

/-- An authoring rule that a config or a half of an entry breaks. -/
inductive Violation where
  | baseEmpty (config : Config)
  | pairEmpty (place : Place)
  | watchesItself (place : Place) (half : Half)
  | targetsBase (place : Place) (half : Half)
  deriving DecidableEq, Repr

namespace Violation

/-- How a violation is reported. The two halves of an entry read the same. -/
def problem : Violation → Problem
  | baseEmpty config => .baseEmpty config
  | pairEmpty place => .pairEmpty place
  | watchesItself place _ => .watchesItself place
  | targetsBase place _ => .targetsBase place

/-- The entry that a violation lies in. -/
def place? : Violation → Option Place
  | baseEmpty _ => none
  | pairEmpty place | watchesItself place _ | targetsBase place _ => some place

/-- Where a violation comes in the report: by config, layer, key, rule and half. -/
def rank : Violation → List Nat
  | baseEmpty config => [config.val]
  | pairEmpty place => [place.config.val, place.layer.val, place.key.val, 0]
  | watchesItself place half => [place.config.val, place.layer.val, place.key.val, 1, half.rank]
  | targetsBase place half => [place.config.val, place.layer.val, place.key.val, 2, half.rank]

theorem rank_of_place? {violation : Violation} {place : Place}
    (h : violation.place? = some place) : ∃ rest, violation.rank =
      place.config.val :: place.layer.val :: place.key.val :: rest := by
  cases violation with
  | baseEmpty config => cases h
  | pairEmpty found | watchesItself found half | targetsBase found half =>
    cases h
    exact ⟨_, rfl⟩

end Violation

namespace Keymap

/-- A rule of authoring is broken. -/
def Violates (keymap : Keymap) : Violation → Prop
  | .baseEmpty config =>
    (∃ layer key, layer ≠ Layer.base ∧ keymap.lookup config layer key ≠ .noOp) ∧
      ∀ key, keymap.lookup config Layer.base key = .noOp
  | .pairEmpty place => keymap.entryAt place = .tapHold .noOp .noOp
  | .watchesItself place half => ∃ normal joint,
    (keymap.entryAt place).half? half = some (.combined place.key normal joint)
  | .targetsBase place half =>
    (keymap.entryAt place).half? half = some (.layerHold Layer.base) ∨
      (keymap.entryAt place).half? half = some (.layerToggle Layer.base)

/-- The violations of an entry. -/
def entryViolations (action : Action) (place : Place) : List Violation :=
  (if action = .tapHold .noOp .noOp then [.pairEmpty place] else []) ++
  (Half.all.filter fun half => (action.half? half).any (·.watches place.key)).map
    (.watchesItself place) ++
  (Half.all.filter fun half => (action.half? half).any (·.layer? = some Layer.base)).map
    (.targetsBase place)

/-- The violations of a config. -/
def configViolations (keymap : Keymap) (config : Config) : List Violation :=
  (if keymap.hasUpper config && keymap.isLayerEmpty config Layer.base then [.baseEmpty config]
    else []) ++
  (places config).flatMap fun place => entryViolations (keymap.entryAt place) place

/-- All violations of a keymap. -/
def violations (keymap : Keymap) : List Violation := Config.all.flatMap keymap.configViolations

variable {keymap other : Keymap} {config : Config} {layer : Layer} {key : Key} {place : Place}
  {action : Action} {violation : Violation}

/-! ## Every violation is reported -/

theorem entryProblems_eq_map (action : Action) (place : Place) :
    entryProblems action place = (entryViolations action place).map (·.problem) := by
  simp only [entryProblems, entryViolations, List.map_append, List.map_map, Action.filter_parts_map]
  congr 2
  split <;> rfl

/-- The problems are the violations, one for each. -/
theorem problems_eq_map_violations (keymap : Keymap) :
    keymap.problems = keymap.violations.map (·.problem) := by
  simp only [problems, violations, List.map_flatMap]
  congr 1
  funext config
  simp only [configProblems, configViolations, List.map_append, List.map_flatMap,
    entryProblems_eq_map]
  congr 1
  split <;> rfl

theorem hasUpper_iff : keymap.hasUpper config = true ↔
    ∃ layer key, layer ≠ Layer.base ∧ keymap.lookup config layer key ≠ .noOp := by
  simp only [hasUpper, List.any_eq_true, Layer.mem_all, true_and, Bool.and_eq_true,
    decide_eq_true_eq, Bool.not_eq_true', ← Bool.not_eq_true, isLayerEmpty_iff, not_forall,
    exists_and_left]

theorem mem_places {config : Config} : place ∈ places config ↔ place.config = config := by
  obtain ⟨config', layer, key⟩ := place
  simp [places, eq_comm]

theorem mem_entryViolations : violation ∈ entryViolations (keymap.entryAt place) place ↔
    violation.place? = some place ∧ keymap.Violates violation := by
  -- a violation in an entry carries the place of that entry
  have hcarry (violation : Place → Violation) (found : Place) :
      keymap.Violates (violation place) ∧ place = found ↔
        some found = some place ∧ keymap.Violates (violation found) :=
    ⟨fun ⟨h, he⟩ => ⟨congrArg some he.symm, he ▸ h⟩,
      fun ⟨he, h⟩ => ⟨Option.some.inj he ▸ h, (Option.some.inj he).symm⟩⟩
  cases violation with
  | baseEmpty config => simp [entryViolations, Violation.place?]
  | pairEmpty found =>
    refine Iff.trans ?_ (hcarry .pairEmpty found)
    simp [entryViolations, Violates, @eq_comm _ found place]
  | watchesItself found half =>
    refine Iff.trans ?_ (hcarry (.watchesItself · half) found)
    simp [entryViolations, Violates, Option.any_eq_true, BasicAction.watches_iff]
  | targetsBase found half =>
    refine Iff.trans ?_ (hcarry (.targetsBase · half) found)
    simp [entryViolations, Violates, Option.any_eq_true, BasicAction.layer?_eq_some_iff,
      and_or_left, exists_or]

/-- Just the broken rules are reported. -/
theorem mem_violations : violation ∈ keymap.violations ↔ keymap.Violates violation := by
  have hentries : (∃ config, ∃ place ∈ places config,
      violation ∈ entryViolations (keymap.entryAt place) place) ↔
      ∃ place, violation.place? = some place ∧ keymap.Violates violation := by
    simp only [mem_places, mem_entryViolations]
    exact ⟨fun ⟨_, place, _, h⟩ => ⟨place, h⟩, fun ⟨place, h⟩ => ⟨place.config, place, rfl, h⟩⟩
  have hbase : (∃ config, violation ∈ if keymap.hasUpper config &&
      keymap.isLayerEmpty config Layer.base then [Violation.baseEmpty config] else []) ↔
      violation.place? = none ∧ keymap.Violates violation := by
    cases violation with
    | baseEmpty config =>
      simp [Violation.place?, Violates, hasUpper_iff, isLayerEmpty_iff]
    | pairEmpty | watchesItself | targetsBase => simp [Violation.place?]
  simp only [violations, configViolations, List.mem_flatMap, List.mem_append, Config.mem_all,
    true_and, exists_or, hbase, hentries]
  cases violation.place? <;> simp

/-! ## The order of the report -/

theorem pairwise_entryViolations (action : Action) (place : Place) :
    (entryViolations action place).Pairwise fun violation other => violation.rank < other.rank := by
  have hhalves (p : Half → Bool) (violation : Half → Violation)
      (hrank : ∀ half other : Half, half.rank < other.rank →
        (violation half).rank < (violation other).rank) :
      ((Half.all.filter p).map violation).Pairwise fun a b => a.rank < b.rank :=
    List.pairwise_map.mpr ((Half.pairwise_rank_all.filter p).imp fun h => hrank _ _ h)
  have hpair : ∀ violation ∈ (if action = .tapHold .noOp .noOp then [Violation.pairEmpty place]
      else []), violation = .pairEmpty place := by
    intro violation hm
    split at hm
    · exact List.mem_singleton.mp hm
    · cases hm
  rw [entryViolations, List.pairwise_append, List.pairwise_append]
  refine ⟨⟨?_, hhalves _ _ ?_, ?_⟩, hhalves _ _ ?_, ?_⟩
  · split <;> simp
  · intro half other h
    simpa [Violation.rank, List.cons_lt_cons_iff] using h
  · intro first hfirst second hsecond
    obtain rfl := hpair first hfirst
    obtain ⟨half, -, rfl⟩ := List.mem_map.mp hsecond
    simp [Violation.rank, List.cons_lt_cons_iff]
  · intro half other h
    simpa [Violation.rank, List.cons_lt_cons_iff] using h
  · intro first hfirst second hsecond
    obtain ⟨half, -, rfl⟩ := List.mem_map.mp hsecond
    rcases List.mem_append.mp hfirst with hfirst | hfirst
    · obtain rfl := hpair first hfirst
      simp [Violation.rank, List.cons_lt_cons_iff]
    · obtain ⟨other, -, rfl⟩ := List.mem_map.mp hfirst
      simp [Violation.rank, List.cons_lt_cons_iff]

/-- Entries are visited layer by layer and within a layer key by key. -/
theorem pairwise_places (config : Config) : (places config).Pairwise fun place other =>
    place.layer < other.layer ∨ place.layer = other.layer ∧ place.key < other.key := by
  rw [places, List.pairwise_flatMap]
  refine ⟨fun layer _ => ?_, (List.pairwise_lt_finRange layerCount).imp fun hlt => ?_⟩
  · exact List.pairwise_map.mpr ((List.pairwise_lt_finRange keyCount).imp fun hlt => .inr ⟨rfl, hlt⟩)
  · intro place hm other hm'
    obtain ⟨key, -, rfl⟩ := List.mem_map.mp hm
    obtain ⟨there, -, rfl⟩ := List.mem_map.mp hm'
    exact .inl hlt

/-- A violation of a config is that its base layer is empty, or lies in one of its entries. -/
theorem of_mem_configViolations (h : violation ∈ keymap.configViolations config) :
    violation = .baseEmpty config ∨
      ∃ place, place.config = config ∧ violation.place? = some place := by
  rcases List.mem_append.mp h with h | h
  · split at h
    · exact .inl (List.mem_singleton.mp h)
    · cases h
  · obtain ⟨place, hplace, hm⟩ := List.mem_flatMap.mp h
    exact .inr ⟨place, mem_places.mp hplace, (mem_entryViolations.mp hm).1⟩

theorem pairwise_configViolations (keymap : Keymap) (config : Config) :
    (keymap.configViolations config).Pairwise
      fun violation other => violation.rank < other.rank := by
  rw [configViolations, List.pairwise_append, List.pairwise_flatMap]
  refine ⟨?_, ⟨fun place _ => pairwise_entryViolations _ place, ?_⟩, ?_⟩
  · split <;> simp
  · refine (pairwise_places config).imp_of_mem fun hplace hother hlt first hfirst second hsecond => ?_
    obtain ⟨rest, hrest⟩ := Violation.rank_of_place? (mem_entryViolations.mp hfirst).1
    obtain ⟨more, hmore⟩ := Violation.rank_of_place? (mem_entryViolations.mp hsecond).1
    have hconfig := (mem_places.mp hplace).trans (mem_places.mp hother).symm
    rw [hrest, hmore]
    simp only [List.cons_lt_cons_iff, hconfig, Fin.val_fin_lt, lt_self_iff_false, true_and,
      false_or, Fin.val_inj]
    exact hlt.imp_right fun ⟨hlayer, hkey⟩ => ⟨hlayer, .inl hkey⟩
  · intro first hfirst second hsecond
    obtain ⟨place, hplace, hm⟩ := List.mem_flatMap.mp hsecond
    obtain ⟨rest, hrest⟩ := Violation.rank_of_place? (mem_entryViolations.mp hm).1
    split at hfirst
    · obtain rfl := List.mem_singleton.mp hfirst
      rw [hrest, mem_places.mp hplace, Violation.rank]
      simp
    · cases hfirst

/-- The violations are reported in the order of their ranks. -/
theorem pairwise_violations (keymap : Keymap) :
    keymap.violations.Pairwise fun violation other => violation.rank < other.rank := by
  have hhead {config : Config} {violation : Violation}
      (h : violation ∈ keymap.configViolations config) :
      ∃ rest, violation.rank = config.val :: rest := by
    rcases of_mem_configViolations h with rfl | ⟨place, rfl, hplace⟩
    · exact ⟨[], rfl⟩
    · obtain ⟨rest, hrest⟩ := Violation.rank_of_place? hplace
      exact ⟨_, hrest⟩
  rw [violations, List.pairwise_flatMap]
  refine ⟨fun config _ => keymap.pairwise_configViolations config,
    (List.pairwise_lt_finRange configCount).imp fun hlt first hfirst second hsecond => ?_⟩
  obtain ⟨rest, hrest⟩ := hhead hfirst
  obtain ⟨more, hmore⟩ := hhead hsecond
  rw [hrest, hmore, List.cons_lt_cons_iff]
  exact .inl hlt

/-! ## Accepted keymaps -/

/-- A keymap is accepted if it has no problems. -/
theorem validate_eq_ok_iff : keymap.validate.value = .ok () ↔ keymap.problems = [] := by
  simp only [validate]
  split
  · next h => exact iff_of_true rfl (List.isEmpty_iff.mp h)
  · next h => exact iff_of_false nofun fun he => h (List.isEmpty_iff.mpr he)

/-- A keymap is accepted if it breaks no rule. -/
theorem validate_eq_ok_iff_not_violates :
    keymap.validate.value = .ok () ↔ ∀ violation, ¬keymap.Violates violation := by
  rw [validate_eq_ok_iff, problems_eq_map_violations, List.map_eq_nil_iff,
    List.eq_nil_iff_forall_not_mem]
  simp only [mem_violations]

/-- The rules, entry by entry. -/
theorem not_violates_iff : (∀ violation, ¬keymap.Violates violation) ↔
    (∀ config : Config, (∃ key, keymap.lookup config Layer.base key ≠ .noOp) ∨
      ∀ layer key, layer ≠ Layer.base → keymap.lookup config layer key = .noOp) ∧
    ∀ config layer key, (keymap.lookup config layer key).Sound key := by
  constructor
  · refine fun h => ⟨fun config => ?_, fun config layer key => ⟨?_, ?_, ?_⟩⟩
    · by_cases hbase : ∀ key, keymap.lookup config Layer.base key = .noOp
      · refine .inr fun layer key hlayer => not_not.mp fun hentry => ?_
        exact h (.baseEmpty config) ⟨⟨layer, key, hlayer, hentry⟩, hbase⟩
      · exact .inl (not_forall.mp hbase)
    · exact h (.pairEmpty ⟨config, layer, key⟩)
    · rintro part hpart normal joint rfl
      obtain ⟨half, hhalf⟩ := Action.mem_parts.mp hpart
      exact h (.watchesItself ⟨config, layer, key⟩ half) ⟨normal, joint, hhalf⟩
    · intro part hpart
      obtain ⟨half, hhalf⟩ := Action.mem_parts.mp hpart
      have hbase := h (.targetsBase ⟨config, layer, key⟩ half)
      constructor
      · rintro rfl
        exact hbase (.inl hhalf)
      · rintro rfl
        exact hbase (.inr hhalf)
  · rintro ⟨hbase, hentry⟩ violation hviolates
    cases violation with
    | baseEmpty config =>
      obtain ⟨⟨layer, key, hlayer, hupper⟩, hempty⟩ := hviolates
      rcases hbase config with ⟨key', hkey⟩ | hnone
      · exact hkey (hempty key')
      · exact hupper (hnone layer key hlayer)
    | pairEmpty place => exact (hentry place.config place.layer place.key).notEmpty hviolates
    | watchesItself place half =>
      obtain ⟨normal, joint, hhalf⟩ := hviolates
      exact (hentry place.config place.layer place.key).notSelf _ (Action.mem_parts.mpr ⟨half, hhalf⟩)
        normal joint rfl
    | targetsBase place half =>
      have hsound := (hentry place.config place.layer place.key).notBase
      rcases hviolates with hhalf | hhalf
      · exact (hsound _ (Action.mem_parts.mpr ⟨half, hhalf⟩)).1 rfl
      · exact (hsound _ (Action.mem_parts.mpr ⟨half, hhalf⟩)).2 rfl

theorem sound_of_accepted (h : keymap.validate.value = .ok ()) (config : Config) (layer : Layer)
    (key : Key) : (keymap.lookup config layer key).Sound key :=
  (not_violates_iff.mp (validate_eq_ok_iff_not_violates.mp h)).2 config layer key

/-- No tap-hold pair of an accepted keymap is empty. -/
theorem lookup_ne_empty_pair (h : keymap.validate.value = .ok ()) :
    keymap.lookup config layer key ≠ .tapHold .noOp .noOp :=
  (sound_of_accepted h config layer key).notEmpty

/-- No layer action of an accepted keymap targets the base layer. -/
theorem layer?_ne_base (h : keymap.validate.value = .ok ()) {part : BasicAction}
    (hm : part ∈ (keymap.lookup config layer key).parts) : part.layer? ≠ some Layer.base := by
  obtain ⟨hhold, htoggle⟩ := (sound_of_accepted h config layer key).notBase part hm
  rw [Ne, BasicAction.layer?_eq_some_iff, not_or]
  exact ⟨hhold, htoggle⟩

/-! ## What does not count -/

/-- Of an entry only its mistakes count and whether there is one at all. -/
theorem problems_congr
    (hempty : ∀ place, keymap.entryAt place = .noOp ↔ other.entryAt place = .noOp)
    (hentry : ∀ place, entryProblems (keymap.entryAt place) place =
      entryProblems (other.entryAt place) place) : keymap.problems = other.problems := by
  have hlayer (config : Config) (layer : Layer) :
      keymap.isLayerEmpty config layer = other.isLayerEmpty config layer := by
    rw [Bool.eq_iff_iff, isLayerEmpty_iff, isLayerEmpty_iff]
    exact forall_congr' fun key => hempty ⟨config, layer, key⟩
  have hupper (config : Config) : keymap.hasUpper config = other.hasUpper config := by
    simp only [hasUpper, hlayer]
  have hconfig : keymap.configProblems = other.configProblems := by
    funext config
    rw [configProblems, configProblems, hupper, hlayer]
    simp only [hentry]
  rw [problems, problems, hconfig]

/-- A part of an entry that is no mistake, whatever the other half is. -/
structure Harmless (part : BasicAction) (key : Key) : Prop where
  entry : part ≠ .noOp
  watches : part.watches key = false
  target : part.layer? ≠ some Layer.base

theorem harmless_emit (code : KeyCode) (key : Key) : Harmless (.emit code) key := ⟨nofun, rfl, nofun⟩

/-- A layer action on an upper layer is harmless, whatever that layer holds. -/
theorem harmless_of_layer? {part : BasicAction} (h : part.layer? = some layer)
    (hupper : layer ≠ Layer.base) : Harmless part key := by
  refine ⟨?_, ?_, fun hbase => hupper (Option.some.inj (h.symm.trans hbase))⟩
  · rintro rfl
    cases h
  · rcases BasicAction.layer?_eq_some_iff.mp h with rfl | rfl <;> rfl

section
variable {part replacement half : BasicAction} (H : Harmless part place.key)
  (H' : Harmless replacement place.key)
include H H'

theorem entryProblems_basic_congr :
    entryProblems (.basic part) place = entryProblems (.basic replacement) place := by
  simp [entryProblems, Action.parts, H.watches, H'.watches, H.target, H'.target]

theorem entryProblems_tap_congr :
    entryProblems (.tapHold part half) place = entryProblems (.tapHold replacement half) place := by
  simp [entryProblems, Action.parts, H.entry, H'.entry, H.watches, H'.watches, H.target, H'.target]

theorem entryProblems_hold_congr :
    entryProblems (.tapHold half part) place = entryProblems (.tapHold half replacement) place := by
  simp [entryProblems, Action.parts, List.filter_cons, H.entry, H'.entry, H.watches, H'.watches,
    H.target, H'.target]

end

/-- Two entries that are not transparent and have the same mistakes can stand for each other. -/
theorem validate_set_congr {replacement : Action} (ha : action ≠ .noOp) (hr : replacement ≠ .noOp)
    (h : entryProblems action place = entryProblems replacement place) :
    (keymap.set place.config place.layer place.key action).validate.value =
      (keymap.set place.config place.layer place.key replacement).validate.value := by
  have hproblems : (keymap.set place.config place.layer place.key action).problems =
      (keymap.set place.config place.layer place.key replacement).problems := by
    apply problems_congr
    · intro there
      rw [entryAt, entryAt, lookup_set, lookup_set]
      split
      · exact iff_of_false ha hr
      · rfl
    · rintro ⟨config, layer, key⟩
      rw [entryAt, entryAt, lookup_set, lookup_set]
      split
      · next he =>
        obtain ⟨rfl, rfl, rfl⟩ := he
        exact h
      · rfl
  simp only [validate, hproblems]

/-- The audit is sound, complete and collects everything. A keymap is accepted just if each config
with an entry above base has one on its base layer and no entry has a mistake in it. Else all broken
rules are reported, each once, in the order of their ranks. A layer action on an upper layer is as
good as an emission, also if that layer is empty. -/
theorem audit_finds_every_violation (keymap : Keymap) :
    (keymap.validate.value = .ok () ↔
      (∀ config : Config, (∃ key, keymap.lookup config Layer.base key ≠ .noOp) ∨
        ∀ layer key, layer ≠ Layer.base → keymap.lookup config layer key = .noOp) ∧
      ∀ config layer key, (keymap.lookup config layer key).Sound key) ∧
    (∃ violations : List Violation,
      (∀ violation, violation ∈ violations ↔ keymap.Violates violation) ∧
      violations.Pairwise (fun violation other => violation.rank < other.rank) ∧
      ∀ problems, keymap.validate.value = .error problems →
        problems = violations.map (·.problem) ∧ Problem.listMessage problems =
          "; ".intercalate (violations.map fun violation => violation.problem.message)) ∧
    ∀ (place : Place) (action half : BasicAction) (layer : Layer) (code : KeyCode),
      action.layer? = some layer → layer ≠ Layer.base →
      let put := keymap.set place.config place.layer place.key
      (put (.basic action)).validate.value = (put (.emit code)).validate.value ∧
      (put (.tapHold action half)).validate.value =
        (put (.tapHold (.emit code) half)).validate.value ∧
      (put (.tapHold half action)).validate.value =
        (put (.tapHold half (.emit code))).validate.value := by
  refine ⟨validate_eq_ok_iff_not_violates.trans not_violates_iff,
    ⟨keymap.violations, fun _ => mem_violations, keymap.pairwise_violations, ?_⟩, ?_⟩
  · intro problems h
    obtain rfl : problems = keymap.problems := by
      simp only [validate] at h
      split at h
      · cases h
      · exact (Except.error.inj h).symm
    rw [problems_eq_map_violations, Problem.listMessage, List.map_map]
    exact ⟨rfl, rfl⟩
  · intro place action half layer code hlayer hupper put
    have H : Harmless action place.key := harmless_of_layer? hlayer hupper
    have H' : Harmless (.emit code) place.key := harmless_emit code place.key
    refine ⟨?_, ?_, ?_⟩
    · exact validate_set_congr (fun he => H.entry (Action.basic.inj he)) nofun
        (entryProblems_basic_congr H H')
    · exact validate_set_congr nofun nofun (entryProblems_tap_congr H H')
    · exact validate_set_congr nofun nofun (entryProblems_hold_congr H H')

/-- Both halves of an entry watch it, another config has nothing on its base layer, and in an accepted
keymap a key toggles an empty layer. -/
theorem audit_finds_every_violation_twice :
    let keymap := (empty.set 0 Layer.base 3 (.tapHold (.combined 3 .a .b) (.combined 3 .a .c))).set
      1 2 5 (.basic (.layerHold Layer.base))
    let toggling := empty.set 0 Layer.base 7 (.basic (.layerToggle 4))
    (∃ (violations : List Violation) (problems : List Problem),
      keymap.validate.value = .error problems ∧
      (∀ violation, violation ∈ violations ↔ keymap.Violates violation) ∧
      Problem.listMessage problems =
        "; ".intercalate (violations.map fun violation => violation.problem.message) ∧
      violations.map (·.problem) = [.watchesItself ⟨0, 0, 3⟩, .watchesItself ⟨0, 0, 3⟩,
        .baseEmpty 1, .targetsBase ⟨1, 2, 5⟩]) ∧
    toggling.isLayerEmpty 0 4 = true ∧
      toggling.validate.value = (empty.set 0 Layer.base 7 (.emit .a)).validate.value := by
  intro keymap toggling
  obtain ⟨-, ⟨violations, hmem, -, hreport⟩, -⟩ := audit_finds_every_violation keymap
  obtain ⟨-, -, hlayer⟩ := audit_finds_every_violation empty
  have hrefused : keymap.validate.value = .error [.watchesItself ⟨0, 0, 3⟩,
      .watchesItself ⟨0, 0, 3⟩, .baseEmpty 1, .targetsBase ⟨1, 2, 5⟩] := by decide +kernel
  obtain ⟨hproblems, hmessage⟩ := hreport _ hrefused
  refine ⟨⟨violations, _, hrefused, hmem, hmessage, hproblems.symm⟩, by decide +kernel, ?_⟩
  exact (hlayer ⟨0, Layer.base, 7⟩ (.layerToggle 4) .noOp 4 .a rfl (by decide)).1

end Keymap

end Keystroke
