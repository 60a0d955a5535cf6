import Keystroke.Json.Value
import Keystroke.Proofs.Json.Records

/-!
# Reading what is written

`Reads reader value a` says that a reader takes `a` from the text of `value`, at any depth. The
written texts are among those of which `Grammar` speaks: each list and each object has its pieces
between brackets, on lines of their own. So lists, records and variants are read back if their parts
are. `read_pretty` closes the chain for a text that holds one value and nothing else.
-/

namespace Keystroke.Json

variable {α β σ : Type}

/-! ## Strings -/

theorem hexDigit?_hexDigit {n : Nat} (h : n < 16) : hexDigit? (Value.hexDigit n) = some n := by
  have hall : ∀ n < 16, hexDigit? (Value.hexDigit n) = some n := by decide
  exact hall n h

/-- A character that is written with its number is read back from it. -/
theorem codeUnit?_hexDigit {n : Nat} (h : n < 32) :
    codeUnit? '0' '0' (Value.hexDigit (n / 16)) (Value.hexDigit (n % 16)) = some n := by
  have hhigh := hexDigit?_hexDigit (show n / 16 < 16 by omega)
  have hlow := hexDigit?_hexDigit (show n % 16 < 16 by omega)
  have hzero : hexDigit? '0' = some 0 := rfl
  simp only [codeUnit?, hzero, hhigh, hlow, Option.pure_def, Option.bind_eq_bind,
    Option.bind_some, Option.some.injEq]
  omega

/-- The escaped form of a character spells it. -/
theorem spells_escape {raw chars : List Char} (H : Spells raw chars) (char : Char) :
    Spells (Value.escape char ++ raw) (char :: chars) := by
  unfold Value.escape
  -- the seven characters with a letter of their own
  iterate 7
    split
    · next he =>
      subst he
      exact .letter rfl H
  split
  · next hcontrol =>
    have hsmall : char.toNat < 32 := hcontrol
    have hlow : isLowSurrogate char.toNat = false := by
      simp only [isLowSurrogate, Bool.and_eq_false_imp, decide_eq_true_eq]
      omega
    have hhigh : isHighSurrogate char.toNat = false := by
      simp only [isHighSurrogate, Bool.and_eq_false_imp, decide_eq_true_eq]
      omega
    have hspells := Spells.codeUnit (codeUnit?_hexDigit hsmall) hlow hhigh H
    rwa [Char.ofNat_toNat] at hspells
  · next hquote hslash _ _ _ _ _ hcontrol => exact .plain hquote hslash hcontrol H

theorem spells_escaped (chars : List Char) : Spells (chars.flatMap Value.escape) chars := by
  induction chars with
  | nil => exact .nil
  | cons char chars ih =>
    rw [List.flatMap_cons]
    exact spells_escape ih char

/-! ## Readers and what is written for them -/

/-- The reader takes `a` from the text of a value, at any depth. -/
def Reads (reader : Reader α) (value : Value) (a : α) : Prop :=
  ∀ depth, Takes reader (value.render depth) a

theorem Reads.map {reader : Reader α} {value : Value} {a : α} (H : Reads reader value a)
    (f : α → β) : Reads (f <$> reader) value (f a) := fun depth => (H depth).map f

theorem reads_string (name : String) : Reads string (.string name) name := fun depth => by
  rw [Value.render, Value.quote]
  exact takes_string (spells_escaped name.toList)

theorem reads_natural {n bound : Nat} (hb : n < bound) (h : n < 2 ^ 53) :
    Reads (natural bound) (.number n) n := fun depth => by
  rw [Value.render]
  exact takes_natural hb h

/-- An index is read back from its number. -/
theorem reads_index {kind : IndexKind} (i : Fin kind.limit) :
    Reads (index kind) (.number i.val) i := by
  intro depth blanks rest hblanks hrest
  have hsmall : i.val < UInt8.size := by
    have hlimit : kind.limit ≤ UInt8.size := by cases kind <;> decide
    exact Nat.lt_of_lt_of_le i.isLt hlimit
  have hnatural := reads_natural hsmall (Nat.lt_trans hsmall (by decide)) depth blanks rest
    hblanks hrest
  have hcheck : kind.check i.val = .ok i := dif_pos i.isLt
  rw [index, bind_of_ok hnatural, hcheck]
  rfl

/-! ## Between brackets -/

theorem blank_newline (depth : Nat) : Blank (Value.newline depth) := by
  intro char hm
  rcases List.mem_cons.mp hm with rfl | hm
  · rfl
  · rw [List.eq_of_mem_replicate hm]
    rfl

/-- What is written between brackets after the first piece, and the closing bracket. -/
def further (depth : Nat) (close : Char) (pieces : List (List Char)) : List Char :=
  pieces.flatMap (fun piece => ',' :: (Value.newline (depth + 1) ++ piece)) ++
    (Value.newline depth ++ [close])

/-- What is written after an opening bracket, up to the closing one. -/
def inside (depth : Nat) (close : Char) : List (List Char) → List Char
  | [] => [close]
  | piece :: pieces => Value.newline (depth + 1) ++ (piece ++ further depth close pieces)

theorem further_cons (depth : Nat) (close : Char) (piece : List Char) (pieces : List (List Char)) :
    further depth close (piece :: pieces) =
      ',' :: (Value.newline (depth + 1) ++ (piece ++ further depth close pieces)) := by
  simp only [further, List.flatMap_cons, List.cons_append, List.append_assoc]

theorem further_spec (depth : Nat) (close : Char) (pieces : List (List Char)) :
    Further close pieces (further depth close pieces) := by
  induction pieces with
  | nil => exact .nil (blank_newline depth)
  | cons piece pieces ih =>
    rw [further_cons]
    exact .cons Blank.nil (blank_newline (depth + 1)) ih

theorem inside_spec (depth : Nat) (close : Char) (pieces : List (List Char)) :
    Inside close pieces (inside depth close pieces) := by
  cases pieces with
  | nil => exact .nil Blank.nil
  | cons piece pieces => exact .cons (blank_newline (depth + 1)) (further_spec depth close pieces)

/-! ## Lists -/

theorem renderItems_eq (depth : Nat) (values : List Value) :
    Value.renderItems depth values = further depth ']' (values.map (Value.render (depth + 1))) := by
  induction values with
  | nil =>
    rw [Value.renderItems, List.map_nil]
    rfl
  | cons value values ih =>
    rw [Value.renderItems, ih, List.map_cons, further_cons]
    simp only [List.cons_append, List.append_assoc]

theorem render_list (depth : Nat) (values : List Value) : (Value.list values).render depth =
    '[' :: inside depth ']' (values.map (Value.render (depth + 1))) := by
  cases values with
  | nil => rw [Value.render]; rfl
  | cons value values =>
    rw [Value.render, renderItems_eq, List.map_cons, inside]
    simp only [List.cons_append, List.append_assoc]

/-- The text of a value begins with no blank and with no closing bracket. -/
theorem opens_render (depth : Nat) (value : Value) : Opens ']' (value.render depth) := by
  cases value with
  | null => exact ⟨_, _, by rw [Value.render], rfl, by decide⟩
  | bool value => cases value <;> exact ⟨_, _, by rw [Value.render], rfl, by decide⟩
  | number n =>
    rw [Value.render]
    exact (digits_decimal n).opens rfl
  | string name =>
    exact ⟨_, _, by rw [Value.render, Value.quote, List.cons_append], rfl, by decide⟩
  | list items => exact ⟨_, _, render_list depth items, rfl, by decide⟩
  | object fields =>
    cases fields with
    | nil => exact ⟨_, _, by rw [Value.render], rfl, by decide⟩
    | cons field fields =>
      exact ⟨_, _, by
        rw [Value.render, List.cons_append, List.cons_append, List.cons_append,
          List.cons_append], rfl, by decide⟩

/-- The items of a list are collected, the latest first. -/
theorem collects_items {read : Reader α} {write : α → Value} {values : List α}
    (H : ∀ a ∈ values, Reads read (write a) a) (depth : Nat) (found : List α) :
    Collects (fun found => do pure ((← read) :: found)) found
      (values.map fun a => (write a).render depth) (values.reverse ++ found) := by
  induction values generalizing found with
  | nil => exact .nil
  | cons a values ih =>
    have htakes : Takes (do pure ((← read) :: found) : Reader (List α)) ((write a).render depth)
        (a :: found) := by
      intro blanks rest hblanks hrest
      rw [bind_of_ok (H a List.mem_cons_self depth blanks rest hblanks hrest)]
      rfl
    have hrest := ih (fun b hb => H b (List.mem_cons_of_mem _ hb)) (a :: found)
    rw [List.reverse_cons, List.append_assoc]
    exact .cons htakes hrest

theorem reads_list {read : Reader α} {write : α → Value} {values : List α}
    (H : ∀ a ∈ values, Reads read (write a) a) :
    Reads (list read) (.list (values.map write)) values := by
  intro depth blanks rest hblanks _
  have hopens : ∀ piece ∈ values.map fun a => (write a).render (depth + 1), Opens ']' piece := by
    intro piece hm
    obtain ⟨a, -, rfl⟩ := List.mem_map.mp hm
    exact opens_render (depth + 1) (write a)
  have hfound := (collects_items H (depth + 1) []).bracketed_eq (inside_spec depth ']' _) hopens
    .list rest
  rw [render_list, List.map_map, list, List.cons_append, bind_of_ok (hblanks.peek_append rfl _),
    if_pos rfl, bind_of_ok (advance_cons _ _)]
  refine (bind_of_ok hfound).trans ?_
  change Except.ok ((values.reverse ++ []).reverse, rest) = _
  rw [List.append_nil, List.reverse_reverse]

/-! ## Records -/

/-- A field of an object as it is written. -/
def fieldMember (depth : Nat) (field : String × Value) : MemberText where
  name := field.1.toList.flatMap Value.escape
  after := [' ']
  value := field.2.render depth

theorem proper_fieldMember (depth : Nat) (field : String × Value) :
    (fieldMember depth field).Proper where
  before := Blank.nil
  after := by
    intro char hm
    rw [List.mem_singleton.mp hm]
    rfl

theorem renderFields_eq (depth : Nat) (fields : List (String × Value)) :
    Value.renderFields depth fields = further depth '}'
      ((fields.map (fieldMember (depth + 1))).map MemberText.written) := by
  induction fields with
  | nil =>
    rw [Value.renderFields, List.map_nil]
    rfl
  | cons field fields ih =>
    rw [Value.renderFields, ih, List.map_cons, List.map_cons, further_cons]
    simp only [Value.quote, fieldMember, MemberText.written, List.cons_append, List.append_assoc,
      List.nil_append]

theorem render_object (depth : Nat) (fields : List (String × Value)) :
    (Value.object fields).render depth = '{' :: inside depth '}'
      ((fields.map (fieldMember (depth + 1))).map MemberText.written) := by
  cases fields with
  | nil => rw [Value.render]; rfl
  | cons field fields =>
    rw [Value.render, renderFields_eq, List.map_cons, List.map_cons, inside]
    simp only [Value.quote, fieldMember, MemberText.written, List.cons_append, List.append_assoc,
      List.nil_append]

/-- Each of some entries gives a field of a record that was not given before. -/
inductive Fills (fields : List (Field σ)) : σ → List (String × Value) → σ → Prop where
  | nil {s : σ} : Fills fields s [] s
  | cons {s s' s'' : σ} {name : String} {field : Field σ} {value : Value}
      {entries : List (String × Value)} :
      fields.find? (·.name = name) = some field → field.isGiven s = false →
      Reads (field.read s) value s' → Fills fields s' entries s'' →
      Fills fields s ((name, value) :: entries) s''

variable {s s' : σ}

theorem Fills.collects {fields : List (Field σ)} {entries : List (String × Value)}
    (H : Fills fields s entries s') (depth : Nat) :
    Collects (member fields) s ((entries.map (fieldMember depth)).map MemberText.written) s' := by
  induction H with
  | nil => exact .nil
  | cons hfind hgiven hread _ ih =>
    exact .cons (takes_member_field (spells_escaped _) (proper_fieldMember depth _) hfind hgiven
      (hread depth)) ih

/-- A record is read back from an object that fills it. -/
theorem reads_record {record : Record σ α} {entries : List (String × Value)} {a : α}
    (H : Fills record.fields record.start entries s) (hfinish : record.finish s = .ok a) :
    Reads record.read (.object entries) a := fun depth => by
  rw [render_object]
  exact takes_record (H.collects (depth + 1)) (inside_spec depth '}' _) (opens_members _) hfinish

theorem reads_slot {name : String} {get : σ → Option β} {set : σ → β → σ} {read : Reader β}
    {value : Value} {b : β} (H : Reads read value b) (s : σ) :
    Reads ((Field.slot name get set read).read s) value (set s b) :=
  fun depth => takes_slot (H depth) s

/-- Values in the order of the fields that they give. -/
inductive FillsInOrder : List (Field σ) → σ → List Value → σ → Prop where
  | nil {s : σ} : FillsInOrder [] s [] s
  | cons {field : Field σ} {fields : List (Field σ)} {s s' s'' : σ} {value : Value}
      {values : List Value} : Reads (field.read s) value s' →
      FillsInOrder fields s' values s'' → FillsInOrder (field :: fields) s (value :: values) s''

theorem FillsInOrder.takesInOrder {fields : List (Field σ)} {values : List Value}
    (H : FillsInOrder fields s values s') (depth : Nat) :
    TakesInOrder fields s (values.map (Value.render depth)) s' := by
  induction H with
  | nil => exact .nil
  | cons hread _ ih => exact .cons (hread depth) ih

/-- A record is read back from the list of its fields. -/
theorem reads_readList {record : Record σ α} {values : List Value} {a : α}
    (H : FillsInOrder record.fields record.start values s)
    (hfinish : record.finish s = .ok a) : Reads record.readList (.list values) a := fun depth => by
  have hopens : ∀ piece ∈ values.map (Value.render (depth + 1)), Opens ']' piece := by
    intro piece hm
    obtain ⟨value, -, rfl⟩ := List.mem_map.mp hm
    exact opens_render (depth + 1) value
  rw [render_list]
  exact takes_readList (H.takesInOrder (depth + 1)) (inside_spec depth ']' _) hopens hfinish

/-! ## Variants -/

/-- How a variant is written: by its name, or as an object of its name and its content. -/
inductive Variant.Writes (variant : Variant α) : Value → α → Prop where
  | nothing {a : α} : variant.content = .nothing a → Writes variant (.string variant.name) a
  | holds {read : Reader α} {value : Value} {a : α} : variant.content = .holds read →
      Reads read value a → Writes variant (.object [(variant.name, value)]) a

/-- A choice is read back from the way in which its variant is written. -/
theorem reads_variant {variants : List (Variant α)} {found : Variant α} {value : Value} {a : α}
    (h : variants.find? (·.name = found.name) = some found) (H : found.Writes value a) :
    Reads (variant variants) value a := fun depth => by
  cases H with
  | nothing hcontent =>
    rw [Value.render, Value.quote]
    exact takes_variant_name h (spells_escaped _) hcontent
  | @holds read value _ hcontent hread =>
    have htake :
        Takes found.content.read (fieldMember (depth + 1) (found.name, value)).value a := by
      rw [hcontent]
      exact hread (depth + 1)
    have hvariant := takes_variant_member h (spells_escaped _)
      (proper_fieldMember (depth + 1) (found.name, value)) htake (blank_newline (depth + 1))
      (blank_newline depth)
    rw [render_object]
    exact hvariant

/-! ## Whole texts -/

/-- A value that is written alone is read back from its text. -/
theorem read_pretty {reader : Reader α} {value : Value} {a : α} (H : Reads reader value a) :
    read reader value.pretty.toList = .ok a := by
  have hread := (H 0).read_eq Blank.nil Blank.nil
  rw [List.nil_append, List.append_nil] at hread
  rw [Value.pretty, String.toList_ofList]
  exact hread

end Keystroke.Json
