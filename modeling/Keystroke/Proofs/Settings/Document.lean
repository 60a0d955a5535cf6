import Keystroke.Proofs.Json.Accepted
import Keystroke.Proofs.Settings

/-!
# Settings documents

A document is an object with any of the five fields, in any order and among other members, or a list
of the first fields (`IsDocument`). It is read as what its fields give (`read_document`), and
nothing else is read (`document_of_read`).
-/

namespace Keystroke

open Json

/-! ## Values as they are written -/

/-- A policy as it is written. -/
def InterruptPolicy.Written (text : List Char) (policy : InterruptPolicy) : Prop :=
  VariantText NoContent (InterruptPolicy.all.map fun policy => .plain policy.name policy) text
    policy

theorem InterruptPolicy.takes {text : List Char} {policy : InterruptPolicy}
    (H : InterruptPolicy.Written text policy) : Takes InterruptPolicy.read text policy :=
  VariantText.takes H fun _ _ _ _ => takes_noContent

theorem InterruptPolicy.takesOnly : TakesOnly InterruptPolicy.read InterruptPolicy.Written := by
  refine takesOnly_variant fun found hm => ?_
  obtain ⟨policy, -, rfl⟩ := List.mem_map.mp hm
  exact takesOnly_noContent rfl

namespace Setting

/-- A value of a setting as it is written in a document. -/
def Written : (setting : Setting) → List Char → setting.Value → Prop
  | debounceSamples | initialConfig => fun text n => text = decimal (UInt8.toNat n)
  | debounceTicks => IsOptional fun text n => text = decimal (UInt32.toNat n)
  | tapHoldTicks => fun text n => text = decimal (UInt32.toNat n)
  | interruptPolicy => InterruptPolicy.Written

/-- What reads a value of a setting. -/
def reader : (setting : Setting) → Reader setting.Value
  | debounceSamples | initialConfig => uint8
  | debounceTicks => optional uint32
  | tapHoldTicks => uint32
  | interruptPolicy => InterruptPolicy.read

variable {setting : Setting} {value : setting.Value} {text : List Char}

theorem takes_reader (H : setting.Written text value) : Takes setting.reader text value := by
  cases setting with
  | debounceSamples => exact H ▸ takes_uint8 _
  | initialConfig => exact H ▸ takes_uint8 _
  | tapHoldTicks => exact H ▸ takes_uint32 _
  | interruptPolicy => exact InterruptPolicy.takes H
  | debounceTicks =>
    cases H with
    | none => exact takes_optional_null _
    | some H =>
      rw [H]
      exact takes_optional_some (takes_uint32 _) ((digits_decimal _).opens rfl)

theorem takesOnly_reader (setting : Setting) : TakesOnly setting.reader setting.Written := by
  cases setting with
  | debounceSamples => exact takesOnly_uint8
  | initialConfig => exact takesOnly_uint8
  | tapHoldTicks => exact takesOnly_uint32
  | interruptPolicy => exact InterruptPolicy.takesOnly
  | debounceTicks => exact takesOnly_uint32.optional

theorem Written.opens (H : setting.Written text value) : Opens ']' text := by
  cases setting with
  | debounceSamples => exact H ▸ (digits_decimal _).opens rfl
  | initialConfig => exact H ▸ (digits_decimal _).opens rfl
  | tapHoldTicks => exact H ▸ (digits_decimal _).opens rfl
  | interruptPolicy => exact VariantText.opens H
  | debounceTicks =>
    cases H with
    | none => exact ⟨_, _, rfl, rfl, by decide⟩
    | some H => exact H ▸ (digits_decimal _).opens rfl

theorem field_injective : Function.Injective field := by
  intro setting other h
  cases setting <;> cases other <;> first | rfl | simp [field] at h

theorem mem_all (setting : Setting) : setting ∈ all := by
  cases setting <;> decide

theorem nodup_all : all.Nodup := by
  decide

/-- The field of a document that gives a setting. -/
def recordField (setting : Setting) : Json.Field Settings.Given :=
  .slot setting.field (·.get setting) (·.set setting) setting.reader

end Setting

namespace Settings

theorem fields_record : Given.record.fields = Setting.all.map Setting.recordField := rfl

/-! ## Documents -/

/-- A setting with a value. -/
abbrev Item := Σ setting : Setting, setting.Value

/-- The items as well as what is given, each over what comes before. -/
def Given.with (given : Given) (items : List Item) : Given :=
  items.foldl (fun given item => given.set item.1 item.2) given

/-- A member of a document gives a setting or has another name. -/
inductive MemberGives (entry : MemberText) : Option Item → Prop where
  | setting {setting : Setting} {value : setting.Value} :
      Spells entry.name setting.field.toList → entry.Proper → setting.Written entry.value value →
      MemberGives entry (some ⟨setting, value⟩)
  | other {name : String} : Spells entry.name name.toList →
      (∀ setting : Setting, setting.field ≠ name) → entry.Proper → IsValue entry.value →
      MemberGives entry none

/-- The text is a document that gives these items. -/
inductive IsDocument : List Item → List Char → Prop where
  | object {entries : List MemberText} {found : List (Option Item)}
      {before inside after : List Char} : List.Forall₂ MemberGives entries found →
      (found.reduceOption.map Sigma.fst).Nodup →
      Inside '}' (entries.map MemberText.written) inside → Blank before → Blank after →
      IsDocument found.reduceOption (before ++ ('{' :: inside ++ after))
  | list {items : List Item} {pieces : List (List Char)} {before inside after : List Char} :
      List.Forall₂ (fun (item : Item) piece => item.1.Written piece item.2) items pieces →
      items.map Sigma.fst <+: Setting.all → Inside ']' pieces inside → Blank before →
      Blank after → IsDocument items (before ++ ('[' :: inside ++ after))

variable {items : List Item} {given given' : Given} {text : List Char}

/-- No setting is given twice. -/
theorem IsDocument.nodup (H : IsDocument items text) : (items.map Sigma.fst).Nodup := by
  cases H with
  | object _ hnodup => exact hnodup
  | list _ hprefix => exact Setting.nodup_all.sublist hprefix.sublist

theorem get_with_of_not_mem {setting : Setting} (h : setting ∉ items.map Sigma.fst) :
    (given.with items).get setting = given.get setting := by
  induction items generalizing given with
  | nil => rfl
  | cons item items ih =>
    rw [List.map_cons, List.mem_cons, not_or] at h
    exact (ih h.2).trans (Given.get_set_of_ne h.1 _ _)

theorem get_with_of_mem {setting : Setting} {value : setting.Value}
    (hnodup : (items.map Sigma.fst).Nodup) (hm : ⟨setting, value⟩ ∈ items) :
    (given.with items).get setting = some value := by
  induction items generalizing given with
  | nil => cases hm
  | cons item items ih =>
    rw [List.map_cons, List.nodup_cons] at hnodup
    rcases List.mem_cons.mp hm with rfl | hm
    · exact (get_with_of_not_mem hnodup.1).trans (Given.get_set_self _ _ _)
    · exact ih hnodup.2 hm

/-! ## What a document gives is read -/

/-- The text of a field gives the setting of the field. -/
def FieldGives (field : Json.Field Given) (given : Given) (text : List Char) (given' : Given) :
    Prop :=
  ∃ (setting : Setting) (value : setting.Value), field = setting.recordField ∧
    setting.Written text value ∧ given' = given.set setting value

theorem FieldGives.takes {field : Json.Field Given} (H : FieldGives field given text given') :
    Takes (field.read given) text given' := by
  obtain ⟨setting, value, rfl, hvalue, rfl⟩ := H
  exact takes_slot (Setting.takes_reader hvalue) given

theorem FieldGives.opens {field : Json.Field Given} (H : FieldGives field given text given') :
    Opens ']' text := by
  obtain ⟨setting, value, -, hvalue, -⟩ := H
  exact hvalue.opens

theorem takesOnly_field {field : Json.Field Given} (hm : field ∈ Given.record.fields)
    (given : Given) : TakesOnly (field.read given) (FieldGives field given) := by
  rw [fields_record] at hm
  obtain ⟨setting, -, rfl⟩ := List.mem_map.mp hm
  intro text rest given' h
  obtain ⟨blanks, piece, hblanks, rfl, value, hvalue, rfl⟩ :=
    takesOnly_slot (Setting.takesOnly_reader setting) given h
  exact ⟨blanks, piece, hblanks, rfl, setting, value, rfl, hvalue, rfl⟩

theorem find?_field (setting : Setting) :
    Given.record.fields.find? (·.name = setting.field) = some setting.recordField := by
  cases setting <;> rfl

theorem find?_eq_none {name : String} (h : ∀ setting : Setting, setting.field ≠ name) :
    Given.record.fields.find? (·.name = name) = none := by
  rw [fields_record, List.find?_eq_none]
  intro field hm
  obtain ⟨setting, -, rfl⟩ := List.mem_map.mp hm
  exact fun he => h setting (of_decide_eq_true he)

theorem isGiven_recordField {setting : Setting} :
    setting.recordField.isGiven given = false ↔ given.get setting = none :=
  Option.isSome_eq_false_iff.trans Option.isNone_iff_eq_none

section
variable {setting : Setting} {value : setting.Value}

/-- The settings of later members are not given by the first one. -/
theorem fresh_cons (hnodup : (List.map Sigma.fst (⟨setting, value⟩ :: items)).Nodup)
    (hfresh : ∀ item ∈ (⟨setting, value⟩ :: items : List Item), given.get item.1 = none) :
    ∀ item ∈ items, (given.set setting value).get item.1 = none := by
  intro item hm
  rw [List.map_cons, List.nodup_cons] at hnodup
  have hne : item.1 ≠ setting := fun he => hnodup.1 (List.mem_map.mpr ⟨item, hm, he⟩)
  rw [Given.get_set_of_ne hne]
  exact hfresh item (List.mem_cons_of_mem _ hm)

theorem fresh_of_cons (hnone : given.get setting = none) (hnodup : (items.map Sigma.fst).Nodup)
    (hfresh : ∀ item ∈ items, (given.set setting value).get item.1 = none) :
    (List.map Sigma.fst (⟨setting, value⟩ :: items)).Nodup ∧
      ∀ item ∈ (⟨setting, value⟩ :: items : List Item), given.get item.1 = none := by
  have hne : ∀ item ∈ items, item.1 ≠ setting := by
    intro item hm he
    have hitem := hfresh item hm
    rw [he, Given.get_set_self] at hitem
    cases hitem
  refine ⟨?_, List.forall_mem_cons.mpr ⟨hnone, fun item hm => ?_⟩⟩
  · rw [List.map_cons, List.nodup_cons]
    refine ⟨fun hm => ?_, hnodup⟩
    obtain ⟨item, hitem, he⟩ := List.mem_map.mp hm
    exact hne item hitem he
  · rw [← Given.get_set_of_ne (hne item hm) given value]
    exact hfresh item hm

end

/-- The members of an object give what their items are, each of them once. -/
theorem gathers_iff {pieces : List (List Char)} :
    Gathers (EntryText FieldGives Given.record.fields) given pieces given' ↔
      ∃ (entries : List MemberText) (found : List (Option Item)),
        pieces = entries.map MemberText.written ∧ List.Forall₂ MemberGives entries found ∧
        (found.reduceOption.map Sigma.fst).Nodup ∧
        (∀ item ∈ found.reduceOption, given.get item.1 = none) ∧
        given' = given.with found.reduceOption := by
  constructor
  · intro H
    -- a field that was given is refused, so the later items are of other settings
    induction H with
    | nil => exact ⟨[], [], rfl, .nil, .nil, nofun, rfl⟩
    | cons hpiece _ ih =>
      obtain ⟨entries, found, rfl, hentries, hnodup, hfresh, rfl⟩ := ih
      cases hpiece with
      | @field entry name _ _ hname hproper hfind hgiven hvalue =>
        obtain ⟨setting, value, rfl, hwritten, rfl⟩ := hvalue
        have hsome := List.find?_some hfind
        obtain rfl : setting.field = name := of_decide_eq_true hsome
        obtain ⟨hnodup, hfresh⟩ :=
          fresh_of_cons (isGiven_recordField.mp hgiven) hnodup hfresh
        exact ⟨entry :: entries, some ⟨setting, value⟩ :: found, rfl,
          .cons (.setting hname hproper hwritten) hentries, hnodup, hfresh, rfl⟩
      | @other entry name hname hproper hfind hvalue =>
        refine ⟨entry :: entries, none :: found, rfl,
          .cons (.other hname ?_ hproper hvalue) hentries, hnodup, hfresh, rfl⟩
        rintro setting rfl
        rw [find?_field] at hfind
        cases hfind
  · rintro ⟨entries, found, rfl, hentries, hnodup, hfresh, rfl⟩
    induction hentries generalizing given with
    | nil => exact .nil
    | cons hentry _ ih =>
      cases hentry with
      | @setting setting value hname hproper hwritten =>
        have hnone := hfresh ⟨setting, value⟩ List.mem_cons_self
        exact .cons (.field hname hproper (find?_field setting) (isGiven_recordField.mpr hnone)
          ⟨setting, value, rfl, hwritten, rfl⟩)
          (ih (List.nodup_cons.mp hnodup).2 (fresh_cons hnodup hfresh))
      | other hname hother hproper hvalue =>
        exact .cons (.other hname hproper (find?_eq_none hother) hvalue) (ih hnodup hfresh)

/-- The values of a list give the first settings. -/
theorem inOrder_iff {settings : List Setting} {pieces : List (List Char)} :
    InOrder FieldGives (settings.map Setting.recordField) given pieces given' ↔
      ∃ items : List Item,
        List.Forall₂ (fun (item : Item) piece => item.1.Written piece item.2) items pieces ∧
        items.map Sigma.fst <+: settings ∧ given' = given.with items := by
  constructor
  · intro H
    induction settings generalizing given pieces with
    | nil =>
      cases H
      exact ⟨[], .nil, List.prefix_rfl, rfl⟩
    | cons setting settings ih =>
      cases H with
      | nil => exact ⟨[], .nil, List.nil_prefix, rfl⟩
      | cons hpiece hmore =>
        obtain ⟨other, value, hfield, hwritten, rfl⟩ := hpiece
        obtain rfl := Setting.field_injective (congrArg Field.name hfield)
        obtain ⟨items, hitems, hprefix, rfl⟩ := ih hmore
        exact ⟨⟨setting, value⟩ :: items, .cons hwritten hitems,
          List.cons_prefix_cons.mpr ⟨rfl, hprefix⟩, rfl⟩
  · rintro ⟨items, hitems, hprefix, rfl⟩
    induction hitems generalizing given settings with
    | nil => exact .nil
    | @cons item piece items pieces hitem _ ih =>
      cases settings with
      | nil => exact absurd (List.prefix_nil.mp hprefix) (List.cons_ne_nil _ _)
      | cons setting settings =>
        obtain ⟨rfl, hmore⟩ := List.cons_prefix_cons.mp hprefix
        exact .cons ⟨item.1, item.2, rfl, hitem, rfl⟩ (ih hmore)

/-- A document is read as what it gives. -/
theorem read_document (H : IsDocument items text) :
    Json.read Given.read text = .ok (Given.with {} items) := by
  have hread : ∀ {piece given}, RecordText FieldGives Given.record piece given →
      Takes Given.read piece given := fun htext =>
    htext.takes (fun _ _ _ _ _ => FieldGives.takes) fun _ _ _ _ _ => FieldGives.opens
  cases H with
  | object hentries hnodup hinside hbefore hafter =>
    have hgathers := gathers_iff.mpr
      ⟨_, _, rfl, hentries, hnodup, fun item _ => Given.get_empty item.1, rfl⟩
    exact (hread (.object hgathers hinside rfl)).read_eq hbefore hafter
  | list hitems hprefix hinside hbefore hafter =>
    have horder : InOrder FieldGives _ {} _ _ := inOrder_iff.mpr ⟨_, hitems, hprefix, rfl⟩
    exact (hread (.list horder hinside rfl)).read_eq hbefore hafter

/-- Nothing but a document is read. -/
theorem document_of_read (h : Json.read Given.read text = .ok given) :
    ∃ items, IsDocument items text ∧ given = Given.with {} items := by
  have honly : TakesOnly Given.read (RecordText FieldGives Given.record) :=
    takesOnly_record fun _ hm => takesOnly_field hm
  obtain ⟨before, piece, after, hbefore, hafter, rfl, htext⟩ := honly.eq_of_read h
  cases htext with
  | object hgathers hinside hfinish =>
    cases hfinish
    obtain ⟨entries, found, rfl, hentries, hnodup, -, rfl⟩ := gathers_iff.mp hgathers
    exact ⟨_, .object hentries hnodup hinside hbefore hafter, rfl⟩
  | list horder hinside hfinish =>
    cases hfinish
    rw [fields_record] at horder
    obtain ⟨items, hitems, hprefix, rfl⟩ := inOrder_iff.mp horder
    exact ⟨items, .list hitems hprefix hinside hbefore hafter, rfl⟩

end Settings

end Keystroke
