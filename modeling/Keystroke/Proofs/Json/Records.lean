import Keystroke.Json.Record
import Keystroke.Proofs.Json.Grammar

/-!
# Records and variants in a text

A record is written as an object whose members are fields and others, or as the list of its first
fields (`RecordText`), and a choice by its name or as an object of its name and its content
(`VariantText`). Both are read from there, given that the fields and the contents are.
-/

namespace Keystroke.Json

variable {α β σ : Type} {text raw blanks piece : List Char} {pieces : List (List Char)} {s s' : σ}

/-! ## Records -/

section
variable {fields : List (Field σ)} {entry : MemberText} {name : String}

/-- A member gives a field that was not given before. -/
theorem takes_member_field {field : Field σ} (hname : Spells entry.name name.toList)
    (hproper : entry.Proper) (hfind : fields.find? (·.name = name) = some field)
    (hgiven : field.isGiven s = false) (H : Takes (field.read s) entry.value s') :
    Takes (member fields s) entry.written s' := by
  intro blanks rest hblanks hrest
  have htake := H entry.after rest hproper.after hrest
  simp only [MemberText.written, List.cons_append, List.append_assoc]
  rw [member, bind_of_ok (hblanks.token_append rfl _), bind_of_ok (stringRest_append hname _)]
  simp only [hfind, hgiven, Bool.false_eq_true, if_false]
  rw [bind_of_ok (hproper.before.token_append rfl _)]
  exact htake

/-- A member of another name is passed over. -/
theorem takes_member_other (hname : Spells entry.name name.toList) (hproper : entry.Proper)
    (hfind : fields.find? (·.name = name) = none) (H : IsValue entry.value) :
    Takes (member fields s) entry.written s := by
  intro blanks rest hblanks hrest
  have htake := H.takes_skip entry.after rest hproper.after hrest
  simp only [MemberText.written, List.cons_append, List.append_assoc]
  rw [member, bind_of_ok (hblanks.token_append rfl _), bind_of_ok (stringRest_append hname _)]
  simp only [hfind]
  rw [bind_of_ok (hproper.before.token_append rfl _), bind_of_ok htake]
  rfl

end

theorem takes_slot {name : String} {get : σ → Option β} {set : σ → β → σ} {reader : Reader β}
    {b : β} (H : Takes reader text b) (s : σ) :
    Takes ((Field.slot name get set reader).read s) text (set s b) := by
  intro blanks rest hblanks hrest
  change (do pure (set s (← reader)) : Reader σ) _ = _
  rw [bind_of_ok (H blanks rest hblanks hrest)]
  rfl

/-- A record is read from an object whose members it collects. -/
theorem takes_record {record : Record σ α} {a : α}
    (H : Collects (member record.fields) record.start pieces s) (hinside : Inside '}' pieces text)
    (hopens : ∀ piece ∈ pieces, Opens '}' piece) (hfinish : record.finish s = .ok a) :
    Takes record.read ('{' :: text) a := by
  intro blanks rest hblanks _
  rw [Record.read, List.cons_append, bind_of_ok (hblanks.peek_append rfl _)]
  simp only
  rw [bind_of_ok (advance_cons _ _), bind_of_ok (H.bracketed_eq hinside hopens .object rest),
    hfinish]
  rfl

/-- Pieces in the order of the fields, as `P` says of each, the first ones of a record. -/
inductive InOrder (P : Field σ → σ → List Char → σ → Prop) :
    List (Field σ) → σ → List (List Char) → σ → Prop where
  | nil {fields : List (Field σ)} {s : σ} : InOrder P fields s [] s
  | cons {field : Field σ} {fields : List (Field σ)} {s s' s'' : σ} {piece : List Char}
      {pieces : List (List Char)} : P field s piece s' → InOrder P fields s' pieces s'' →
      InOrder P (field :: fields) s (piece :: pieces) s''

/-- Values in the order of the fields that they give. -/
abbrev TakesInOrder : List (Field σ) → σ → List (List Char) → σ → Prop :=
  InOrder fun field s => Takes (field.read s)

namespace InOrder

variable {P Q : Field σ → σ → List Char → σ → Prop} {fields : List (Field σ)}

theorem imp (H : InOrder P fields s pieces s')
    (h : ∀ field ∈ fields, ∀ s piece s', P field s piece s' → Q field s piece s') :
    InOrder Q fields s pieces s' := by
  induction H with
  | nil => exact .nil
  | cons hpiece _ ih =>
    exact .cons (h _ List.mem_cons_self _ _ _ hpiece)
      (ih fun other hm => h other (List.mem_cons_of_mem _ hm))

theorem exists_of_mem (H : InOrder P fields s pieces s') :
    ∀ piece ∈ pieces, ∃ field ∈ fields, ∃ s s', P field s piece s' := by
  induction H with
  | nil => nofun
  | cons hpiece _ ih =>
    refine List.forall_mem_cons.mpr ⟨⟨_, List.mem_cons_self, _, _, hpiece⟩, fun piece hm => ?_⟩
    obtain ⟨other, hother, hpiece⟩ := ih piece hm
    exact ⟨other, List.mem_cons_of_mem _ hother, hpiece⟩

end InOrder

/-- A list can end before all fields are given. -/
theorem positional_end (fields : List (Field σ)) (first : Bool) (s : σ) (hblanks : Blank blanks)
    (rest : List Char) : positional fields first s (blanks ++ ']' :: rest) = .ok (s, rest) := by
  cases fields with
  | nil =>
    rw [positional, bind_of_ok (hblanks.token_append rfl rest)]
    rfl
  | cons field fields =>
    rw [positional, bind_of_ok (hblanks.peek_append rfl rest), if_pos rfl,
      bind_of_ok (advance_cons _ _)]
    rfl

/-- The fields after the first one are read behind their commas. -/
theorem TakesInOrder.positional_further {fields : List (Field σ)}
    (H : TakesInOrder fields s pieces s') (hfurther : Further ']' pieces text) (rest : List Char) :
    positional fields false s (text ++ rest) = .ok (s', rest) := by
  induction H generalizing text with
  | @nil fields =>
    cases hfurther with
    | nil hblanks =>
      rw [List.append_assoc, List.singleton_append]
      exact positional_end fields false _ hblanks rest
  | cons htake _ ih =>
    cases hfurther with
    | cons hbefore hafter hmore =>
      have hpiece := htake _ _ hafter (hmore.follows .list rest)
      simp only [List.append_assoc, List.cons_append]
      rw [positional, bind_of_ok (hbefore.peek_append rfl _), if_neg (by decide),
        if_neg (by decide), bind_of_ok (token_cons rfl _), bind_of_ok hpiece]
      exact ih hmore

theorem TakesInOrder.positional_inside {fields : List (Field σ)}
    (H : TakesInOrder fields s pieces s') (hinside : Inside ']' pieces text)
    (hopens : ∀ piece ∈ pieces, Opens ']' piece) (rest : List Char) :
    positional fields true s (text ++ rest) = .ok (s', rest) := by
  cases hinside with
  | nil hblanks =>
    cases H
    rw [List.append_assoc, List.singleton_append]
    exact positional_end fields true s hblanks rest
  | cons hblanks hfurther =>
    cases H with
    | cons htake hmore =>
      obtain ⟨char, tail, rfl, hchar, hne⟩ := hopens _ List.mem_cons_self
      have hpiece := htake [] _ Blank.nil (hfurther.follows .list rest)
      simp only [List.append_assoc, List.cons_append, List.nil_append] at hpiece ⊢
      rw [positional, bind_of_ok (hblanks.peek_append hchar _), if_neg hne, if_pos rfl,
        bind_of_ok hpiece]
      exact TakesInOrder.positional_further hmore hfurther rest

section
variable {record : Record σ α} {a : α}
  (H : TakesInOrder record.fields record.start pieces s) (hinside : Inside ']' pieces text)
  (hopens : ∀ piece ∈ pieces, Opens ']' piece) (hfinish : record.finish s = .ok a)
include H hinside hopens hfinish

/-- A record is read from the list of its first fields, too. -/
theorem takes_record_list : Takes record.read ('[' :: text) a := by
  intro blanks rest hblanks _
  rw [Record.read, List.cons_append, bind_of_ok (hblanks.peek_append rfl _)]
  simp only
  rw [bind_of_ok (advance_cons _ _), bind_of_ok (H.positional_inside hinside hopens rest), hfinish]
  rfl

theorem takes_readList : Takes record.readList ('[' :: text) a := by
  intro blanks rest hblanks _
  rw [Record.readList, List.cons_append, bind_of_ok (hblanks.peek_append rfl _), if_pos rfl,
    bind_of_ok (advance_cons _ _), bind_of_ok (H.positional_inside hinside hopens rest), hfinish]
  rfl

end

/-- A member of a record: it gives a field that was not given before, written as `P` says, or has
another name. -/
inductive EntryText (P : Field σ → σ → List Char → σ → Prop) (fields : List (Field σ)) (s : σ) :
    List Char → σ → Prop where
  | field {entry : MemberText} {name : String} {field : Field σ} {s' : σ} :
      Spells entry.name name.toList → entry.Proper →
      fields.find? (·.name = name) = some field → field.isGiven s = false →
      P field s entry.value s' → EntryText P fields s entry.written s'
  | other {entry : MemberText} {name : String} : Spells entry.name name.toList → entry.Proper →
      fields.find? (·.name = name) = none → IsValue entry.value →
      EntryText P fields s entry.written s

/-- A record as it is written, with its fields written as `P` says. -/
inductive RecordText (P : Field σ → σ → List Char → σ → Prop) (record : Record σ α) :
    List Char → α → Prop where
  | object {pieces : List (List Char)} {text : List Char} {s : σ} {a : α} :
      Gathers (EntryText P record.fields) record.start pieces s → Inside '}' pieces text →
      record.finish s = .ok a → RecordText P record ('{' :: text) a
  | list {pieces : List (List Char)} {text : List Char} {s : σ} {a : α} :
      InOrder P record.fields record.start pieces s → Inside ']' pieces text →
      record.finish s = .ok a → RecordText P record ('[' :: text) a

section
variable {P : Field σ → σ → List Char → σ → Prop}

theorem EntryText.opens {fields : List (Field σ)} (H : EntryText P fields s piece s') :
    Opens '}' piece := by
  cases H with
  | field => exact opens_member _
  | other => exact opens_member _

variable {record : Record σ α} {a : α}
  (htakes : ∀ field ∈ record.fields, ∀ s piece s', P field s piece s' →
    Takes (field.read s) piece s')
include htakes

theorem EntryText.takes (H : EntryText P record.fields s piece s') :
    Takes (member record.fields s) piece s' := by
  cases H with
  | field hname hproper hfind hgiven hvalue =>
    exact takes_member_field hname hproper hfind hgiven
      (htakes _ (List.mem_of_find?_eq_some hfind) _ _ _ hvalue)
  | other hname hproper hfind hvalue => exact takes_member_other hname hproper hfind hvalue

/-- A record is read from what it is written as. -/
theorem RecordText.takes (H : RecordText P record text a)
    (hopens : ∀ field ∈ record.fields, ∀ s piece s', P field s piece s' → Opens ']' piece) :
    Takes record.read text a := by
  cases H with
  | object hgathers hinside hfinish =>
    refine takes_record (hgathers.imp fun _ _ _ => EntryText.takes htakes) hinside ?_ hfinish
    intro piece hm
    obtain ⟨_, _, hentry⟩ := hgathers.exists_of_mem piece hm
    exact hentry.opens
  | list horder hinside hfinish =>
    refine takes_record_list (horder.imp htakes) hinside ?_ hfinish
    intro piece hm
    obtain ⟨field, hfield, _, _, hpiece⟩ := horder.exists_of_mem piece hm
    exact hopens field hfield _ _ _ hpiece

end

/-! ## Variants -/

section
variable {variants : List (Variant α)} {found : Variant α} {a : α}
  (h : variants.find? (·.name = found.name) = some found)
include h

theorem findVariant_eq (text : List Char) :
    findVariant variants found.name text = .ok (found, text) := by
  rw [findVariant, h]
  rfl

theorem takes_variant_name (hname : Spells raw found.name.toList)
    (hcontent : found.content = .nothing a) :
    Takes (variant variants) ('"' :: (raw ++ ['"'])) a := by
  intro blanks rest hblanks hrest
  have hstring := takes_string hname [] rest Blank.nil hrest
  rw [List.nil_append] at hstring
  rw [List.cons_append] at hstring ⊢
  rw [variant, bind_of_ok (hblanks.peek_append rfl _)]
  simp only
  rw [bind_of_ok hstring, bind_of_ok (findVariant_eq h rest), hcontent]
  rfl

theorem takes_variant_member {entry : MemberText} {after : List Char}
    (hname : Spells entry.name found.name.toList) (hproper : entry.Proper)
    (H : Takes found.content.read entry.value a) {before : List Char} (hbefore : Blank before)
    (hafter : Blank after) :
    Takes (variant variants) ('{' :: (before ++ (entry.written ++ (after ++ ['}'])))) a := by
  intro blanks rest hblanks _
  have htake := H entry.after (after ++ '}' :: rest) hproper.after
    (hafter.follows (Closing.object.follows rest))
  simp only [MemberText.written, List.cons_append, List.append_assoc, List.nil_append]
  rw [variant, bind_of_ok (hblanks.peek_append rfl _)]
  simp only
  rw [bind_of_ok (advance_cons _ _), bind_of_ok (hbefore.token_append rfl _),
    bind_of_ok (stringRest_append hname _), bind_of_ok (findVariant_eq h _),
    bind_of_ok (hproper.before.token_append rfl _), bind_of_ok htake,
    bind_of_ok (hafter.token_append rfl rest)]
  rfl

end

/-- One of some variants as it is written, with its content written as `P` says. -/
inductive VariantText (P : Variant α → List Char → α → Prop) (variants : List (Variant α)) :
    List Char → α → Prop where
  | name {found : Variant α} {raw : List Char} {a : α} :
      variants.find? (·.name = found.name) = some found → Spells raw found.name.toList →
      found.content = .nothing a → VariantText P variants ('"' :: (raw ++ ['"'])) a
  | member {found : Variant α} {entry : MemberText} {before after : List Char} {a : α} :
      variants.find? (·.name = found.name) = some found → Spells entry.name found.name.toList →
      entry.Proper → P found entry.value a → Blank before → Blank after →
      VariantText P variants ('{' :: (before ++ (entry.written ++ (after ++ ['}'])))) a

theorem VariantText.takes {P : Variant α → List Char → α → Prop} {variants : List (Variant α)}
    {a : α} (H : VariantText P variants text a)
    (h : ∀ found ∈ variants, ∀ piece a, P found piece a → Takes found.content.read piece a) :
    Takes (variant variants) text a := by
  cases H with
  | name hfind hname hcontent => exact takes_variant_name hfind hname hcontent
  | member hfind hname hproper hvalue hbefore hafter =>
    exact takes_variant_member hfind hname hproper
      (h _ (List.mem_of_find?_eq_some hfind) _ _ hvalue) hbefore hafter

theorem VariantText.opens {P : Variant α → List Char → α → Prop} {variants : List (Variant α)}
    {a : α} (H : VariantText P variants text a) : Opens ']' text := by
  cases H with
  | name => exact ⟨_, _, rfl, rfl, by decide⟩
  | member => exact ⟨_, _, rfl, rfl, by decide⟩

/-- What stands for the content of a variant that has none. -/
def NoContent (found : Variant α) (text : List Char) (a : α) : Prop :=
  found.content = .nothing a ∧ text = ['n', 'u', 'l', 'l']

theorem takes_noContent {found : Variant α} {a : α} (H : NoContent found text a) :
    Takes found.content.read text a := by
  obtain ⟨hcontent, rfl⟩ := H
  intro blanks rest hblanks hrest
  rw [hcontent, Content.read, bind_of_ok (takes_null blanks rest hblanks hrest)]
  rfl

end Keystroke.Json
