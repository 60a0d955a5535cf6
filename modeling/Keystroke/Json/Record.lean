import Keystroke.Json.Reader

/-!
# Records and variants

A record is written as an object, whose unknown fields are skipped, or as a list of its fields in
order. A choice between variants is written as the name of a variant or as an object with one entry,
the name and the content. `Record.read` and `variant` read them from tables that say what the fields
and the variants are.

This stands for the readers that the JSON package derives. What is assumed of them:

* in an object, a second value for a field is refused before it is looked at, and of the missing
  fields the first one in order is reported, at the closing bracket;
* a list that is too short is refused unless the fields left may be missing, and one that is too
  long is malformed;
* a variant without content is its name, or an object in which the content is `null`.
-/

namespace Keystroke.Json

variable {α σ : Type}

/-- A field of a record that is collected in `σ`. -/
structure Field (σ : Type) where
  name : String
  /-- The field is there already. -/
  isGiven : σ → Bool
  read : σ → Reader σ

/-- A field that fills an optional slot of `σ`. -/
def Field.slot {β : Type} (name : String) (get : σ → Option β) (set : σ → β → σ)
    (value : Reader β) : Field σ where
  name
  isGiven := fun state => (get state).isSome
  read := fun state => do pure (set state (← value))

/-- How a record is read: its fields in order, the record with no field, and what becomes of it. -/
structure Record (σ α : Type) where
  fields : List (Field σ)
  start : σ
  finish : σ → Except Mismatch α

/-- What is found in a slot, or the complaint that its field is missing. -/
def required (name : String) : Option α → Except Mismatch α
  | some value => .ok value
  | none => .error (.missingField name)

/-- One entry of an object. -/
def member (fields : List (Field σ)) (state : σ) : Reader σ := do
  token '"'
  let name ← stringRest
  match fields.find? (·.name = name) with
  | some field =>
    if field.isGiven state then refuse (.duplicateField name)
    else do
      token ':'
      field.read state
  | none => do
    token ':'
    skip
    pure state

/-- The first fields of a record, as many as are written, up to the closing bracket. -/
def positional : List (Field σ) → Bool → σ → Reader σ
  | [], _, state => do
    token ']'
    pure state
  | field :: fields, first, state => do
    let char ← peek
    if char = ']' then do
      advance
      pure state
    else if first then do
      positional fields false (← field.read state)
    else do
      token ','
      positional fields false (← field.read state)

def Record.read (record : Record σ α) : Reader α := do
  match ← peek with
  | '{' => do
    advance
    match record.finish (← bracketed '}' (member record.fields) record.start) with
    | .ok value => pure value
    | .error mismatch => refuse mismatch
  | '[' => do
    advance
    match record.finish (← positional record.fields true record.start) with
    | .ok value => pure value
    | .error _ => refuse .unfit
  | _ => wrongKind

/-- Reads a fixed number of values from a list, in order. -/
def Record.readList (record : Record σ α) : Reader α := do
  if (← peek) = '[' then do
    advance
    match record.finish (← positional record.fields true record.start) with
    | .ok value => pure value
    | .error _ => refuse .unfit
  else wrongKind

/-- What a variant holds. -/
inductive Content (α : Type) where
  | nothing (value : α)
  | holds (read : Reader α)

/-- One choice. -/
structure Variant (α : Type) where
  name : String
  content : Content α

/-- A choice that holds nothing. -/
def Variant.plain (name : String) (value : α) : Variant α := ⟨name, .nothing value⟩

/-- A choice that holds a value. -/
def Variant.holding {β : Type} (name : String) (make : β → α) (read : Reader β) : Variant α :=
  ⟨name, .holds (make <$> read)⟩

/-- The variant of a name. -/
def findVariant (variants : List (Variant α)) (name : String) : Reader (Variant α) :=
  match variants.find? (·.name = name) with
  | some variant => pure variant
  | none => refuse (.unknownVariant name (variants.map (·.name)))

/-- The content of a variant that is written out. -/
def Content.read : Content α → Reader α
  | nothing value => do
    null
    pure value
  | holds read => read

def variant (variants : List (Variant α)) : Reader α := do
  match ← peek with
  | '"' => do
    let found ← findVariant variants (← string)
    match found.content with
    | .nothing value => pure value
    | .holds _ => refuse .unfit
  | '{' => do
    advance
    token '"'
    let found ← findVariant variants (← stringRest)
    token ':'
    let value ← found.content.read
    token '}'
    pure value
  | _ => throw .malformed

end Keystroke.Json
