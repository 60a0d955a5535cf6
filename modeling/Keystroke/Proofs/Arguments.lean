import Mathlib
import Keystroke.Arguments

/-!
# Accepted arguments

Words that are accepted are flags, each with its value if it takes one, and what is read is what the
flags do one after the other (`applies_of_readAll`); that a value is looked at late only matters to
words that are refused. So a flag that fills a slot does so if and only if it stands in the words,
and with the one value that it has there (`Applies.tells`).
-/

namespace Keystroke.Arguments

variable {σ τ α : Type}

/-! ## Words -/

/-- The word of a long flag, with the value that stands in it. -/
def longWord (name : String) : Option String → String
  | none => "--" ++ name
  | some value => "--" ++ name ++ "=" ++ value

/-- The flag stands in the words, with or without a value in its own word. -/
def Occurs (words : List String) (name : String) : Prop := ∃ value, longWord name value ∈ words

/-- The flag stands in the words with this value, in its own word or in the next one. -/
def Gives (words : List String) (name value : String) : Prop :=
  longWord name (some value) ∈ words ∨
    ∃ before after, words = before ++ longWord name none :: value :: after

variable {words rest : List String} {word name value : String} {found : Option String}

theorem gives_cons : Gives (word :: words) name value ↔
    word = longWord name (some value) ∨
      (word = longWord name none ∧ ∃ after, words = value :: after) ∨ Gives words name value := by
  constructor
  · rintro (hm | ⟨before, after, h⟩)
    · rcases List.mem_cons.mp hm with heq | hm
      · exact .inl heq.symm
      · exact .inr (.inr (.inl hm))
    · cases before with
      | nil =>
        obtain ⟨rfl, rfl⟩ := List.cons.inj h
        exact .inr (.inl ⟨rfl, after, rfl⟩)
      | cons first before =>
        obtain ⟨rfl, rfl⟩ := List.cons.inj h
        exact .inr (.inr (.inr ⟨before, after, rfl⟩))
  · rintro (rfl | ⟨rfl, after, rfl⟩ | hm | ⟨before, after, rfl⟩)
    · exact .inl List.mem_cons_self
    · exact .inr ⟨[], after, rfl⟩
    · exact .inl (List.mem_cons_of_mem _ hm)
    · exact .inr ⟨word :: before, after, rfl⟩

theorem Gives.occurs (H : Gives words name value) : Occurs words name := by
  rcases H with hm | ⟨before, after, rfl⟩
  · exact ⟨_, hm⟩
  · exact ⟨none, by simp⟩

theorem occurs_append : Occurs (words ++ rest) name ↔ Occurs words name ∨ Occurs rest name := by
  simp only [Occurs, List.mem_append, exists_or]

/-- A name that a word can give. -/
structure IsName (name : String) : Prop where
  ne_empty : name.toList ≠ []
  no_equals : ∀ char ∈ name.toList, char ≠ '='

/-- What stands in the word of a flag after its name. -/
def longRest : Option String → List Char
  | none => []
  | some value => '=' :: value.toList

theorem toList_longWord (name : String) (found : Option String) :
    (longWord name found).toList = '-' :: '-' :: (name.toList ++ longRest found) := by
  cases found <;> simp [longWord, longRest]

theorem span_longRest (h : ∀ char ∈ name.toList, char ≠ '=') (found : Option String) :
    (name.toList ++ longRest found).span (· ≠ '=') = (name.toList, longRest found) := by
  have hname : ∀ char ∈ name.toList, decide (char ≠ '=') = true := fun char hm =>
    decide_eq_true (h char hm)
  rw [List.span_eq_takeWhile_dropWhile, List.takeWhile_append_of_pos hname,
    List.dropWhile_append_of_pos hname]
  cases found <;> simp [longRest]

/-- The word of a flag is cut into its name and its value. -/
theorem of_longWord (H : IsName name) (found : Option String) :
    Word.of (longWord name found) = .long name found := by
  unfold Word.of
  rw [toList_longWord]
  split
  · next h =>
    simp only [List.cons.injEq, true_and, List.append_eq_nil_iff] at h
    exact absurd h.1 H.ne_empty
  · next h =>
    simp only [List.cons.injEq, true_and] at h
    rw [← h, span_longRest H.no_equals]
    cases found <;> simp [longRest, String.ofList_toList]
  · next hlong h =>
    exact absurd (List.cons.inj (List.cons.inj h).2).1.symm hlong
  · next hlong _ => exact absurd rfl (hlong _)

/-- Only the words of a flag are cut into its name and a value. -/
theorem eq_longWord (h : Word.of word = .long name found) : word = longWord name found := by
  unfold Word.of at h
  split at h
  · cases h
  · next rest _ hword =>
    have hspan : ∀ first more, rest.span (· ≠ '=') = (first, more) → rest = first ++ more := by
      intro first more hspan
      rw [List.span_eq_takeWhile_dropWhile] at hspan
      cases hspan
      exact List.takeWhile_append_dropWhile.symm
    apply String.toList_injective
    rw [toList_longWord, hword]
    split at h
    · next first hfirst =>
      cases h
      rw [hspan _ _ hfirst, String.toList_ofList]
      rfl
    · next first char more hfirst =>
      have hchar : char = '=' := by
        have hdrop := List.head?_dropWhile_not (fun char => decide (char ≠ '=')) rest
        rw [List.span_eq_takeWhile_dropWhile, Prod.mk.injEq] at hfirst
        rw [hfirst.2] at hdrop
        simpa using hdrop
      cases h
      rw [hspan _ _ hfirst, hchar, String.toList_ofList, longRest, String.toList_ofList]
  · cases h
  · cases h

theorem not_occurs_nil (name : String) : ¬Occurs [] name := fun ⟨_, hm⟩ => List.not_mem_nil hm

/-- A word that is cut otherwise is not that of the flag. -/
theorem ne_longWord (H : IsName name) (h : ∀ found, Word.of word ≠ .long name found)
    (found : Option String) : word ≠ longWord name found := by
  rintro rfl
  exact h found (of_longWord H found)

theorem longWord_inj (H : IsName name) {other : Option String}
    (h : longWord name found = longWord name other) : found = other := by
  have hword := of_longWord H found
  rw [h, of_longWord H other] at hword
  exact (Word.long.inj hword).2.symm

/-- The flag stands in the words with this value and with no other. -/
structure GivesOnly (words : List String) (name value : String) : Prop where
  gives : Gives words name value
  eq_of_gives : ∀ other, Gives words name other → other = value

theorem GivesOnly.cons_of_ne (H : GivesOnly words name value)
    (h : ∀ found, word ≠ longWord name found) : GivesOnly (word :: words) name value where
  gives := gives_cons.mpr (.inr (.inr H.gives))
  eq_of_gives := by
    intro other hother
    rcases gives_cons.mp hother with heq | ⟨heq, -⟩ | hmore
    · exact absurd heq (h _)
    · exact absurd heq (h _)
    · exact H.eq_of_gives other hmore

theorem GivesOnly.append_left (H : GivesOnly words name value) {before : List String}
    (h : ¬Occurs before name) : GivesOnly (before ++ words) name value := by
  induction before with
  | nil => exact H
  | cons word before ih =>
    have hword : ∀ found, word ≠ longWord name found :=
      fun found he => h ⟨found, he ▸ List.mem_cons_self⟩
    exact (ih fun ⟨found, hm⟩ => h ⟨found, List.mem_cons_of_mem _ hm⟩).cons_of_ne hword

theorem givesOnly_sameWord (H : IsName name) (value : String) (h : ¬Occurs words name) :
    GivesOnly (longWord name (some value) :: words) name value where
  gives := .inl List.mem_cons_self
  eq_of_gives := by
    intro other hother
    rcases gives_cons.mp hother with heq | ⟨heq, -⟩ | hmore
    · exact (Option.some.inj (longWord_inj H heq)).symm
    · cases longWord_inj H heq
    · exact absurd hmore.occurs h

theorem givesOnly_nextWord (H : IsName name) (hvalue : ∀ found, value ≠ longWord name found)
    (h : ¬Occurs words name) : GivesOnly (longWord name none :: value :: words) name value where
  gives := .inr ⟨[], words, rfl⟩
  eq_of_gives := by
    intro other hother
    rcases gives_cons.mp hother with heq | ⟨-, after, heq⟩ | hmore
    · cases longWord_inj H heq
    · exact (List.cons.inj heq).1.symm
    · obtain ⟨found, hm⟩ := hmore.occurs
      rcases List.mem_cons.mp hm with heq | hm
      · exact absurd heq.symm (hvalue found)
      · exact absurd ⟨found, hm⟩ h

/-! ## Flags -/

variable {flags : List (Flag σ)} {flag : Flag σ}

/-- The word begins a flag, with a value in it or not. -/
inductive Begins (flags : List (Flag σ)) (word : String) : Flag σ → Option String → Prop where
  | long {name : String} {found : Option String} {flag : Flag σ} :
      Word.of word = .long name found → flags.find? (·.long = name) = some flag →
      Begins flags word flag found
  | short {letter : Char} {more : List Char} {flag : Flag σ} :
      Word.of word = .short letter more → flags.find? (·.short = some letter) = some flag →
      Begins flags word flag (attached more)

/-- The words up to the free ones are flags, which lead from one state to another. -/
inductive Applies (flags : List (Flag σ)) : σ → List String → List String → σ → Prop where
  | done {s : σ} {words : List String} : Applies flags s words words s
  | endOfFlags {s : σ} {word : String} : Word.of word = .endOfFlags → Applies flags s [word] [] s
  | switch {s s' s'' : σ} {word : String} {words rest : List String} {flag : Flag σ}
      {act : σ → Except Fault σ} : Begins flags word flag none → flag.effect = .switch act →
      act s = .ok s' → Applies flags s' words rest s'' → Applies flags s (word :: words) rest s''
  | sameWord {s s' s'' : σ} {word value : String} {words rest : List String} {flag : Flag σ}
      {act : σ → String → Except Fault σ} : Begins flags word flag (some value) →
      flag.effect = .value act → act s value = .ok s' → Applies flags s' words rest s'' →
      Applies flags s (word :: words) rest s''
  | nextWord {s s' s'' : σ} {word value : String} {words rest : List String} {flag : Flag σ}
      {act : σ → String → Except Fault σ} : Begins flags word flag none →
      flag.effect = .value act → Word.of value = .free → act s value = .ok s' →
      Applies flags s' words rest s'' → Applies flags s (word :: value :: words) rest s''

/-- What is read from the words, with a flag that waits for its value before them. -/
inductive AppliesPending (flags : List (Flag σ)) (s : σ) :
    Option (Pending σ) → List String → List String → σ → Prop where
  | settled {s' s'' : σ} {pending : Option (Pending σ)} {words rest : List String} :
      settle s pending = .ok s' → Applies flags s' words rest s'' →
      AppliesPending flags s pending words rest s''
  | waiting {act : σ → String → Except Fault σ} {value : String} {s' s'' : σ}
      {words rest : List String} : Word.of value = .free → act s value = .ok s' →
      Applies flags s' words rest s'' →
      AppliesPending flags s (some ⟨act, none⟩) (value :: words) rest s''

theorem bind_eq_ok {α β ε : Type} {x : Except ε α} {f : α → Except ε β} {b : β}
    (h : (x >>= f) = .ok b) : ∃ a, x = .ok a ∧ f a = .ok b := by
  cases x with
  | error error => cases h
  | ok a => exact ⟨a, rfl, h⟩

theorem AppliesPending.applies {s s' : σ} (H : AppliesPending flags s none words rest s') :
    Applies flags s words rest s' := by
  cases H with
  | settled hsettle happlies =>
    cases hsettle
    exact happlies

/-- What has waited is settled when a flag begins. -/
theorem appliesPending_of_start {s s' s'' : σ} {pending pending' : Option (Pending σ)}
    (hbegins : Begins flags word flag found) (h : flag.start found s pending = .ok (s', pending'))
    (H : AppliesPending flags s' pending' words rest s'') :
    AppliesPending flags s pending (word :: words) rest s'' := by
  rw [Flag.start.eq_def] at h
  cases heffect : flag.effect with
  | switch act =>
    rw [heffect] at h
    cases found with
    | some value => cases h
    | none =>
      obtain ⟨t, hsettle, h⟩ := bind_eq_ok h
      obtain ⟨t', hact, h⟩ := bind_eq_ok h
      cases h
      exact .settled hsettle (.switch hbegins heffect hact H.applies)
  | value act =>
    rw [heffect] at h
    cases found with
    | some value =>
      obtain ⟨t, hsettle, h⟩ := bind_eq_ok h
      obtain ⟨t', hact, h⟩ := bind_eq_ok h
      cases h
      exact .settled hsettle (.sameWord hbegins heffect hact H.applies)
    | none =>
      obtain ⟨t, hsettle, h⟩ := bind_eq_ok h
      cases h
      cases H with
      | settled h => cases h
      | waiting hfree hact happlies =>
        exact .settled hsettle (.nextWord hbegins heffect hfree hact happlies)

/-- Accepted words are flags in order. -/
theorem appliesPending_of_read {s final : σ} {pending : Option (Pending σ)} {reading : Reading σ}
    (h : read flags s pending words = .ok reading)
    (hfinal : settle reading.state reading.pending = .ok final) :
    AppliesPending flags s pending words reading.rest final := by
  induction words generalizing s pending with
  | nil =>
    cases h
    exact .settled hfinal .done
  | cons word words ih =>
    rw [read.eq_def] at h
    simp only at h
    cases hword : Word.of word with
    | endOfFlags =>
      rw [hword] at h
      simp only at h
      split at h
      · next hempty =>
        cases h
        rw [List.isEmpty_iff.mp hempty]
        exact .settled hfinal (.endOfFlags hword)
      · cases h
    | long name found =>
      rw [hword] at h
      simp only at h
      cases hfind : flags.find? (·.long = name) with
      | none =>
        rw [hfind] at h
        cases h
      | some flag =>
        rw [hfind] at h
        obtain ⟨⟨s', pending'⟩, hstart, hread⟩ := bind_eq_ok h
        exact appliesPending_of_start (.long hword hfind) hstart (ih hread)
    | short letter more =>
      rw [hword] at h
      simp only at h
      cases hfind : flags.find? (·.short = some letter) with
      | none =>
        rw [hfind] at h
        cases h
      | some flag =>
        rw [hfind] at h
        obtain ⟨⟨s', pending'⟩, hstart, hread⟩ := bind_eq_ok h
        exact appliesPending_of_start (.short hword hfind) hstart (ih hread)
    | free =>
      rw [hword] at h
      simp only at h
      split at h
      · next act =>
        cases ih h with
        | settled hsettle happlies => exact .waiting hword hsettle happlies
      · cases h
        exact .settled hfinal .done

/-- Words that are all accepted are flags in order up to the end. -/
theorem applies_of_readAll {s final : σ} (h : readAll flags s words = .ok final) :
    Applies flags s words [] final := by
  obtain ⟨reading, hread, h⟩ := bind_eq_ok h
  split at h
  · next hempty =>
    rw [← List.isEmpty_iff.mp hempty]
    exact (appliesPending_of_read hread h).applies
  · cases h

/-! ## Slots -/

/-- What a flag of some name is to a slot: the one that fills it with what its value is converted
to, at most once. -/
structure Flag.Fills (flag : Flag σ) (get : σ → Option α) (convert : String → Except Fault α) :
    Prop where
  long_only : flag.short = none
  fills : ∃ act, flag.effect = .value act ∧ ∀ s value s', act s value = .ok s' →
    get s = none ∧ ∃ a, convert value = .ok a ∧ get s' = some a

/-- The flag does not touch the slot. -/
structure Flag.Keeps (flag : Flag σ) (get : σ → Option α) : Prop where
  switch : ∀ act, flag.effect = .switch act → ∀ s s', act s = .ok s' → get s' = get s
  value : ∀ act, flag.effect = .value act → ∀ s value s', act s value = .ok s' → get s' = get s

/-- The flags of this name fill the slot, and the others do not touch it. -/
def IsSlot (flags : List (Flag σ)) (name : String) (get : σ → Option α)
    (convert : String → Except Fault α) : Prop :=
  ∀ flag ∈ flags, flag.long = name ∧ flag.Fills get convert ∨ flag.long ≠ name ∧ flag.Keeps get

/-- What the words say of a slot: nothing, and it stays as it is, or it is filled. -/
inductive Tells (words : List String) (name : String) (convert : String → Except Fault α) :
    Option α → Option α → Prop where
  | nothing {a : Option α} : ¬Occurs words name → Tells words name convert a a
  | value {value : String} {a : α} : GivesOnly words name value → convert value = .ok a →
      Tells words name convert none (some a)

variable {get : σ → Option α} {convert : String → Except Fault α}

theorem Begins.mem (H : Begins flags word flag found) : flag ∈ flags := by
  cases H with
  | long _ hfind => exact List.mem_of_find?_eq_some hfind
  | short _ hfind => exact List.mem_of_find?_eq_some hfind

/-- The word of a flag with no letter is its name. -/
theorem Begins.eq_longWord (H : Begins flags word flag found) (h : flag.short = none) :
    word = longWord flag.long found := by
  cases H with
  | long hword hfind =>
    have hname := List.find?_some hfind
    rw [of_decide_eq_true hname]
    exact Arguments.eq_longWord hword
  | short _ hfind =>
    have hfound := List.find?_some hfind
    have hletter := of_decide_eq_true hfound
    rw [h] at hletter
    cases hletter

/-- The word of a flag is not that of another name. -/
theorem Begins.ne_longWord (H : Begins flags word flag found) (hname : IsName name)
    (h : flag.long ≠ name) (other : Option String) : word ≠ longWord name other := by
  apply Arguments.ne_longWord hname
  intro other hword
  cases H with
  | long hlong hfind =>
    rw [hlong] at hword
    cases hword
    have hfound := List.find?_some hfind
    exact h (of_decide_eq_true hfound)
  | short hshort =>
    rw [hshort] at hword
    cases hword

/-- Words before the ones with the flag do not matter if it is in none of them. -/
theorem Tells.append_left {a b : Option α} (H : Tells words name convert a b)
    {before : List String} (h : ¬Occurs before name) :
    Tells (before ++ words) name convert a b := by
  cases H with
  | nothing hnone => exact .nothing fun hoccurs => (occurs_append.mp hoccurs).elim h hnone
  | value honly hconvert => exact .value (honly.append_left h) hconvert

theorem Tells.cons_of_ne {a b : Option α} (H : Tells words name convert a b)
    (h : ∀ found, word ≠ longWord name found) : Tells (word :: words) name convert a b := by
  have hnone : ¬Occurs [word] name := by
    rintro ⟨found, hm⟩
    exact h found (List.mem_singleton.mp hm).symm
  exact H.append_left hnone

/-- A slot stays as it is if its flag is in none of the words. -/
theorem Tells.eq_of_not_occurs {a b : Option α} (H : Tells words name convert a b)
    (h : ¬Occurs words name) : b = a := by
  cases H with
  | nothing => rfl
  | value honly => exact absurd honly.gives.occurs h

/-- A slot that is full stays as it is, and its flag does not come again. -/
theorem Tells.of_some {a : α} {b : Option α} (H : Tells words name convert (some a) b) :
    b = some a ∧ ¬Occurs words name := by
  cases H with
  | nothing hnone => exact ⟨rfl, hnone⟩

/-- The words give what an empty slot is filled with. -/
theorem Tells.givesOnly {a : α} (H : Tells words name convert none (some a)) :
    ∃ value, GivesOnly words name value ∧ convert value = .ok a := by
  cases H with
  | value honly hconvert => exact ⟨_, honly, hconvert⟩

theorem Tells.not_occurs (H : Tells words name convert none none) : ¬Occurs words name := by
  cases H with
  | nothing hnone => exact hnone

/-- The flags in the words fill a slot if and only if its flag is among them. -/
theorem Applies.tells {s s' : σ} (H : Applies flags s words rest s')
    (hslot : IsSlot flags name get convert) (hname : IsName name) :
    ∃ consumed, words = consumed ++ rest ∧ Tells consumed name convert (get s) (get s') := by
  -- once its own flag has filled the slot, the words after it say nothing more of it
  induction H with
  | done => exact ⟨[], rfl, .nothing (not_occurs_nil name)⟩
  | @endOfFlags _ word hword =>
    refine ⟨[word], rfl, .nothing ?_⟩
    rintro ⟨found, hm⟩
    rw [← List.mem_singleton.mp hm, of_longWord hname] at hword
    cases hword
  | switch hbegins heffect hact _ ih =>
    obtain ⟨consumed, rfl, htells⟩ := ih
    refine ⟨_ :: consumed, rfl, ?_⟩
    rcases hslot _ hbegins.mem with ⟨-, hfills⟩ | ⟨hother, hkeeps⟩
    · obtain ⟨_, hact', -⟩ := hfills.fills
      rw [heffect] at hact'
      cases hact'
    · rw [← hkeeps.switch _ heffect _ _ hact]
      exact htells.cons_of_ne (hbegins.ne_longWord hname hother)
  | @sameWord _ _ _ word value _ _ _ _ hbegins heffect hact _ ih =>
    obtain ⟨consumed, rfl, htells⟩ := ih
    refine ⟨_ :: consumed, rfl, ?_⟩
    rcases hslot _ hbegins.mem with ⟨hown, hfills⟩ | ⟨hother, hkeeps⟩
    · obtain ⟨_, hact', hall⟩ := hfills.fills
      rw [heffect] at hact'
      cases hact'
      obtain ⟨hnone, a, hconvert, hsome⟩ := hall _ _ _ hact
      have hword := hbegins.eq_longWord hfills.long_only
      rw [hown] at hword
      rw [hsome] at htells
      rw [hnone, hword, htells.of_some.1]
      exact .value (givesOnly_sameWord hname value htells.of_some.2) hconvert
    · rw [← hkeeps.value _ heffect _ _ _ hact]
      exact htells.cons_of_ne (hbegins.ne_longWord hname hother)
  | @nextWord _ _ _ word value _ _ _ _ hbegins heffect hfree hact _ ih =>
    obtain ⟨consumed, rfl, htells⟩ := ih
    have hvalue : ∀ found, value ≠ longWord name found := ne_longWord hname (by simp [hfree])
    refine ⟨_ :: _ :: consumed, rfl, ?_⟩
    rcases hslot _ hbegins.mem with ⟨hown, hfills⟩ | ⟨hother, hkeeps⟩
    · obtain ⟨_, hact', hall⟩ := hfills.fills
      rw [heffect] at hact'
      cases hact'
      obtain ⟨hnone, a, hconvert, hsome⟩ := hall _ _ _ hact
      have hword := hbegins.eq_longWord hfills.long_only
      rw [hown] at hword
      rw [hsome] at htells
      rw [hnone, hword, htells.of_some.1]
      exact .value (givesOnly_nextWord hname hvalue htells.of_some.2) hconvert
    · rw [← hkeeps.value _ heffect _ _ _ hact]
      exact (htells.cons_of_ne hvalue).cons_of_ne (hbegins.ne_longWord hname hother)

/-- A flag of a name that none of the flags has is in none of the words. -/
theorem Applies.not_occurs {s s' : σ} (H : Applies flags s words rest s')
    (h : ∀ flag ∈ flags, flag.long ≠ name) (hname : IsName name) :
    ∃ consumed, words = consumed ++ rest ∧ ¬Occurs consumed name := by
  have hslot : IsSlot flags name (fun _ => (none : Option Unit)) fun _ => .error .unknown :=
    fun flag hm => .inr ⟨h flag hm, fun _ _ _ _ _ => rfl, fun _ _ _ _ _ _ => rfl⟩
  obtain ⟨consumed, hwords, htells⟩ := H.tells hslot hname
  refine ⟨consumed, hwords, ?_⟩
  cases htells with
  | nothing hnone => exact hnone

/-! ## Slots of flags and of lists of flags -/

/-- A value that is given at most once is converted and set. -/
theorem eq_of_once {set : σ → α → σ} {act : σ → String → Except Fault σ} {s s' : σ}
    (heffect : once get set convert = .value act) (h : act s value = .ok s') :
    get s = none ∧ ∃ a, convert value = .ok a ∧ s' = set s a := by
  cases heffect
  by_cases hgiven : (get s).isSome
  · simp only [hgiven, if_true] at h
    cases h
  · simp only [hgiven] at h
    obtain ⟨a, hconvert, h⟩ := bind_eq_ok h
    cases h
    exact ⟨Option.not_isSome_iff_eq_none.mp hgiven, a, hconvert, rfl⟩

theorem fills_once {set : σ → α → σ} (hshort : flag.short = none)
    (heffect : flag.effect = once get set convert) (h : ∀ s a, get (set s a) = some a) :
    flag.Fills get convert where
  long_only := hshort
  fills := by
    refine ⟨_, heffect, fun s value s' hact => ?_⟩
    obtain ⟨hnone, a, hconvert, rfl⟩ := eq_of_once rfl hact
    exact ⟨hnone, a, hconvert, h s a⟩

theorem keeps_once {β : Type} {get' : σ → Option β} {set : σ → β → σ}
    {convert : String → Except Fault β} (heffect : flag.effect = once get' set convert)
    (h : ∀ s b, get (set s b) = get s) : flag.Keeps get where
  switch := by
    rintro act hact
    rw [heffect] at hact
    cases hact
  value := by
    rintro act hact s value s' hs
    obtain ⟨-, b, -, rfl⟩ := eq_of_once (heffect.symm.trans hact) hs
    exact h s b

section
variable {getPart : τ → σ} {setPart : τ → σ → τ}

/-- What the flag of a part does is what it does to the part. -/
theorem within_switch {act : τ → Except Fault τ} {t t' : τ}
    (heffect : (flag.within getPart setPart).effect = .switch act) (h : act t = .ok t') :
    ∃ partAct s, flag.effect = .switch partAct ∧ partAct (getPart t) = .ok s ∧
      t' = setPart t s := by
  rw [Flag.within] at heffect
  cases hpart : flag.effect with
  | switch partAct =>
    simp only [hpart] at heffect
    cases heffect
    obtain ⟨s, hs, h⟩ := bind_eq_ok h
    cases h
    exact ⟨partAct, s, rfl, hs, rfl⟩
  | value partAct =>
    simp only [hpart] at heffect
    cases heffect

theorem within_value {act : τ → String → Except Fault τ} {t t' : τ}
    (heffect : (flag.within getPart setPart).effect = .value act) (h : act t value = .ok t') :
    ∃ partAct s, flag.effect = .value partAct ∧ partAct (getPart t) value = .ok s ∧
      t' = setPart t s := by
  rw [Flag.within] at heffect
  cases hpart : flag.effect with
  | switch partAct =>
    simp only [hpart] at heffect
    cases heffect
  | value partAct =>
    simp only [hpart] at heffect
    cases heffect
    obtain ⟨s, hs, h⟩ := bind_eq_ok h
    cases h
    exact ⟨partAct, s, rfl, hs, rfl⟩

/-- The slots of a part are slots of the whole. -/
theorem IsSlot.within (H : IsSlot flags name get convert)
    (h : ∀ t s, getPart (setPart t s) = s) :
    IsSlot (flags.map (·.within getPart setPart)) name (fun t => get (getPart t)) convert := by
  intro flag' hm
  obtain ⟨flag, hflag, rfl⟩ := List.mem_map.mp hm
  rcases H flag hflag with ⟨hown, hfills⟩ | ⟨hother, hkeeps⟩
  · obtain ⟨partAct, heffect, hall⟩ := hfills.fills
    have hwithin : ∃ act, (flag.within getPart setPart).effect = .value act := by
      rw [Flag.within]
      simp only [heffect]
      exact ⟨_, rfl⟩
    obtain ⟨act, hact⟩ := hwithin
    refine .inl ⟨hown, hfills.long_only, act, hact, fun t value t' ht => ?_⟩
    obtain ⟨partAct', s, heffect', hs, rfl⟩ := within_value hact ht
    rw [heffect] at heffect'
    cases heffect'
    rw [h]
    exact hall _ _ _ hs
  · refine .inr ⟨hother, fun act hact t t' ht => ?_, fun act hact t value t' ht => ?_⟩
    · obtain ⟨partAct, s, heffect, hs, rfl⟩ := within_switch hact ht
      rw [h]
      exact hkeeps.switch _ heffect _ _ hs
    · obtain ⟨partAct, s, heffect, hs, rfl⟩ := within_value hact ht
      rw [h]
      exact hkeeps.value _ heffect _ _ _ hs

/-- The flags of a part do not touch a slot that is no part of it. -/
theorem keeps_within {get : τ → Option α} (h : ∀ t s, get (setPart t s) = get t)
    (flag : Flag σ) : (flag.within getPart setPart).Keeps get where
  switch := by
    rintro act hact t t' ht
    obtain ⟨-, s, -, -, rfl⟩ := within_switch hact ht
    exact h t s
  value := by
    rintro act hact t value t' ht
    obtain ⟨-, s, -, -, rfl⟩ := within_value hact ht
    exact h t s

end

end Keystroke.Arguments
