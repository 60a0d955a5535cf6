/-!
# Command line arguments

Words are read from left to right against a list of flags. A flag that takes a value finds it in the
same word or in the next one, and the value is looked at when the next flag begins or the words end;
a word that is out of place is refused before that. The first word that belongs to no flag ends the
reading, and the caller decides about it.

This stands for the command-line package. What is assumed of it:

* a long flag is `--name value` or `--name=value`, a short one `-n value`, `-nvalue` or `-n=value`;
* after a flag that takes a value, a word that begins with a dash is a flag and no value;
* a flag that is given twice, does not exist, lacks its value or has one it does not take is
  refused, and so is a value that does not parse, a number out of range included;
* the global flags may stand on either side of the name of the command;
* every flag reports the source of its value, which is the command line if the flag is given, and
  its default otherwise if it has one.
-/

namespace Keystroke.Arguments

/-- Why arguments are refused. -/
inductive Fault where
  /-- A flag that does not exist or a word out of place. -/
  | unknown
  /-- A flag without the value it takes. -/
  | noValue
  /-- A value other than those that the flag allows. -/
  | notAllowed
  /-- A value that is no number of the kind the flag takes. -/
  | notNumber
  /-- A flag that is given twice. -/
  | twice
  /-- A value for a flag that takes none. -/
  | needlessValue
  /-- A flag that has to be given and is not. -/
  | missing
  deriving DecidableEq, Repr

/-- Where the value of a flag comes from. -/
inductive ValueSource where
  | defaultValue
  | commandLine
  deriving DecidableEq, Repr

/-- The source of a value that has a default. -/
def ValueSource.of {α : Type} (given : Option α) : ValueSource :=
  if given.isSome then commandLine else defaultValue

/-- The sources of the values of all flags, by the names of the fields they fill. A flag without a
value has none. -/
abbrev Sources := String → Option ValueSource

variable {σ τ : Type}

/-- What a flag does to what is read so far. -/
inductive Effect (σ : Type) where
  | switch (set : σ → Except Fault σ)
  | value (set : σ → String → Except Fault σ)

/-- A flag, by its long name and perhaps a single letter. -/
structure Flag (σ : Type) where
  long : String
  short : Option Char := none
  effect : Effect σ

/-- A value to be given at most once, checked before it is converted. -/
def once {α : Type} (get : σ → Option α) (set : σ → α → σ) (convert : String → Except Fault α) :
    Effect σ :=
  .value fun state word => do
    if (get state).isSome then throw .twice
    else pure (set state (← convert word))

/-- A switch to be given at most once. -/
def onceSwitch (get : σ → Bool) (set : σ → σ) : Effect σ :=
  .switch fun state => if get state then throw .twice else pure (set state)

/-- A flag of a part of what is read. -/
def Flag.within (get : τ → σ) (set : τ → σ → τ) (flag : Flag σ) : Flag τ where
  long := flag.long
  short := flag.short
  effect :=
    match flag.effect with
    | .switch act => .switch fun state => do pure (set state (← act (get state)))
    | .value act => .value fun state word => do pure (set state (← act (get state) word))

/-- A flag whose value is not looked at yet, if it has one. -/
structure Pending (σ : Type) where
  set : σ → String → Except Fault σ
  value : Option String := none

/-- What is read once the pending flag has its value. -/
def settle (state : σ) : Option (Pending σ) → Except Fault σ
  | none => .ok state
  | some ⟨_, none⟩ => .error .noValue
  | some ⟨set, some value⟩ => set state value

/-- What a word is. -/
inductive Word where
  /-- Ends the flags. -/
  | endOfFlags
  | long (name : String) (value : Option String)
  | short (letter : Char) (rest : List Char)
  | free
  deriving DecidableEq, Repr

/-- Cuts a word into a flag and its value. -/
def Word.of (word : String) : Word :=
  match word.toList with
  | ['-', '-'] => .endOfFlags
  | '-' :: '-' :: rest =>
    match rest.span (· ≠ '=') with
    | (name, []) => .long (String.ofList name) none
    | (name, _ :: value) => .long (String.ofList name) (some (String.ofList value))
  | '-' :: letter :: rest => .short letter rest
  | _ => .free

/-- The value that stands in the same word as a single letter; an equals sign before it is no part
of it. -/
def attached : List Char → Option String
  | [] => none
  | '=' :: rest => some (String.ofList rest)
  | rest => some (String.ofList rest)

/-- What is read, the flag that waits, and the words from the first free one on. -/
structure Reading (σ : Type) where
  state : σ
  pending : Option (Pending σ) := none
  rest : List String := []

/-- Starts a flag, with the value that stands in the same word. -/
def Flag.start (flag : Flag σ) (value : Option String) (state : σ) (pending : Option (Pending σ)) :
    Except Fault (σ × Option (Pending σ)) :=
  match flag.effect, value with
  | .switch set, none => do
    pure (← set (← settle state pending), none)
  | .switch _, some _ => throw .needlessValue
  | .value set, some value => do
    pure (← set (← settle state pending) value, none)
  | .value set, none => do
    pure (← settle state pending, some { set })

def read (flags : List (Flag σ)) (state : σ) (pending : Option (Pending σ)) :
    List String → Except Fault (Reading σ)
  | [] => .ok { state, pending }
  | word :: words =>
    match Word.of word with
    | .endOfFlags => if words.isEmpty then .ok { state, pending } else .error .unknown
    | .long name value =>
      match flags.find? (·.long = name) with
      | none => .error .unknown
      | some flag => do
        let (state, pending) ← flag.start value state pending
        read flags state pending words
    | .short letter rest =>
      match flags.find? (·.short = some letter) with
      | none => .error .unknown
      | some flag => do
        let (state, pending) ← flag.start (attached rest) state pending
        read flags state pending words
    | .free =>
      match pending with
      | some ⟨set, none⟩ => read flags state (some ⟨set, some word⟩) words
      | _ => .ok { state, pending, rest := word :: words }

/-- Reads words that are all flags and their values. -/
def readAll (flags : List (Flag σ)) (state : σ) (words : List String) : Except Fault σ := do
  let reading ← read flags state none words
  if reading.rest.isEmpty then settle reading.state reading.pending else throw .unknown

/-- The integer that a word writes in decimal, with an optional sign. -/
def integer? (word : String) : Option Int :=
  let natural? (chars : List Char) : Option Nat :=
    if chars.isEmpty || !chars.all Char.isDigit then none
    else some (chars.foldl (fun value char => 10 * value + (char.toNat - '0'.toNat)) 0)
  match word.toList with
  | '-' :: chars => (natural? chars).map fun n => -(n : Int)
  | '+' :: chars => (natural? chars).map fun n => (n : Int)
  | chars => (natural? chars).map fun n => (n : Int)

/-- A number below a bound. -/
def number (bound : Nat) (word : String) : Except Fault Nat :=
  match integer? word with
  | some n => if 0 ≤ n ∧ n < bound then .ok n.toNat else .error .notNumber
  | none => .error .notNumber

def uint8 (word : String) : Except Fault UInt8 := do
  pure (← number UInt8.size word).toUInt8

def uint32 (word : String) : Except Fault UInt32 := do
  pure (← number UInt32.size word).toUInt32

end Keystroke.Arguments
