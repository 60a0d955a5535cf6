import Keystroke.Proofs.Json.Numeral

/-!
# Values in a text

How a value can stand in a text, with blanks wherever there can be some, and that a reader takes it
from there. `Takes reader text a` says so of one reader and one text, whatever blanks come before it
and whatever can follow a value comes after. It goes up from strings and numerals to what stands
between brackets, where all lists and objects share one induction over their pieces
(`Collects.bracketed_eq`). A value that nobody asked for can be any value (`IsValue.takes_skip`).
-/

namespace Keystroke.Json

variable {α β σ : Type} {text rest raw chars : List Char} {char : Char}

/-! ## Strings -/

/-- What stands between quotes for some characters. -/
inductive Spells : List Char → List Char → Prop where
  | nil : Spells [] []
  | plain {char : Char} {raw chars : List Char} : char ≠ '"' → char ≠ '\\' → ¬char < ' ' →
      Spells raw chars → Spells (char :: raw) (char :: chars)
  | letter {letter char : Char} {raw chars : List Char} : escape? letter = some char →
      Spells raw chars → Spells ('\\' :: letter :: raw) (char :: chars)
  | codeUnit {a b c d : Char} {n : Nat} {raw chars : List Char} : codeUnit? a b c d = some n →
      isLowSurrogate n = false → isHighSurrogate n = false → Spells raw chars →
      Spells ('\\' :: 'u' :: a :: b :: c :: d :: raw) (Char.ofNat n :: chars)
  | surrogates {a b c d e f g h : Char} {high low : Nat} {raw chars : List Char} :
      codeUnit? a b c d = some high → isHighSurrogate high = true →
      codeUnit? e f g h = some low → isLowSurrogate low = true → Spells raw chars →
      Spells ('\\' :: 'u' :: a :: b :: c :: d :: '\\' :: 'u' :: e :: f :: g :: h :: raw)
        (ofSurrogates high low :: chars)

/-- What stands between quotes in a string that is not read. -/
inductive IsString : List Char → Prop where
  | nil : IsString []
  | plain {char : Char} {raw : List Char} : char ≠ '"' → char ≠ '\\' → ¬char < ' ' →
      IsString raw → IsString (char :: raw)
  | letter {letter char : Char} {raw : List Char} : escape? letter = some char → IsString raw →
      IsString ('\\' :: letter :: raw)
  | codeUnit {a b c d : Char} {n : Nat} {raw : List Char} : codeUnit? a b c d = some n →
      IsString raw → IsString ('\\' :: 'u' :: a :: b :: c :: d :: raw)

theorem ne_u_of_escape? {letter : Char} (h : escape? letter = some char) : letter ≠ 'u' := by
  rintro rfl
  cases h

theorem not_isLowSurrogate_of_high {n : Nat} (h : isHighSurrogate n = true) :
    isLowSurrogate n = false := by
  simp only [isHighSurrogate, isLowSurrogate, Bool.and_eq_true, decide_eq_true_eq,
    Bool.and_eq_false_imp, decide_eq_false_iff_not] at h ⊢
  omega

section
variable (h : unescape text = .ok (chars, rest))
include h

theorem unescape_plain (hquote : char ≠ '"') (hslash : char ≠ '\\') (hcontrol : ¬char < ' ') :
    unescape (char :: text) = .ok (char :: chars, rest) := by
  rw [unescape.eq_def]
  simp only [hquote, hslash, hcontrol, h, if_false]
  rfl

theorem unescape_letter {letter : Char} (hl : escape? letter = some char) :
    unescape ('\\' :: letter :: text) = .ok (char :: chars, rest) := by
  have hu := ne_u_of_escape? hl
  simp only [unescape, hl, h, Char.reduceEq, if_false, if_true]
  rfl

theorem unescape_codeUnit {a b c d : Char} {n : Nat} (hn : codeUnit? a b c d = some n)
    (hlow : isLowSurrogate n = false) (hhigh : isHighSurrogate n = false) :
    unescape ('\\' :: 'u' :: a :: b :: c :: d :: text) = .ok (Char.ofNat n :: chars, rest) := by
  simp only [unescape, hn, hlow, hhigh, h, Char.reduceEq, Bool.false_eq_true, if_false, if_true]
  rfl

theorem unescape_surrogates {a b c d e f g i : Char} {high low : Nat}
    (hhigh : codeUnit? a b c d = some high) (hh : isHighSurrogate high = true)
    (hlow : codeUnit? e f g i = some low) (hl : isLowSurrogate low = true) :
    unescape ('\\' :: 'u' :: a :: b :: c :: d :: '\\' :: 'u' :: e :: f :: g :: i :: text) =
      .ok (ofSurrogates high low :: chars, rest) := by
  have hn := not_isLowSurrogate_of_high hh
  rw [unescape]
  simp only [hhigh, hn, hh, hlow, hl, h, Char.reduceEq, Bool.false_eq_true, if_false, if_true]
  rfl

end

theorem Spells.unescape_append (H : Spells raw chars) (rest : List Char) :
    unescape (raw ++ '"' :: rest) = .ok (chars, rest) := by
  induction H with
  | nil =>
    rw [List.nil_append, unescape.eq_def]
    exact if_pos rfl
  | plain hquote hslash hcontrol _ ih => exact unescape_plain ih hquote hslash hcontrol
  | letter hletter _ ih => exact unescape_letter ih hletter
  | codeUnit hn hlow hhigh _ ih => exact unescape_codeUnit ih hn hlow hhigh
  | surrogates hhigh hh hlow hl _ ih => exact unescape_surrogates ih hhigh hh hlow hl

theorem IsString.skipChars_append (H : IsString raw) (rest : List Char) :
    skipChars (raw ++ '"' :: rest) = .ok rest := by
  induction H with
  | nil =>
    rw [List.nil_append, skipChars.eq_def]
    exact if_pos rfl
  | plain hquote hslash hcontrol _ ih =>
    rw [List.cons_append, skipChars.eq_def]
    simp only [hquote, hslash, hcontrol, if_false]
    exact ih
  | letter hletter _ ih =>
    have hu := ne_u_of_escape? hletter
    simp only [List.cons_append, skipChars, hletter, Char.reduceEq, if_false, if_true]
    exact ih
  | codeUnit hn _ ih =>
    simp only [List.cons_append, skipChars, hn, Char.reduceEq, if_false, if_true]
    exact ih

theorem stringRest_append {name : String} (H : Spells raw name.toList) (rest : List Char) :
    stringRest (raw ++ '"' :: rest) = .ok (name, rest) := by
  have hget : (get : Reader (List Char)) (raw ++ '"' :: rest) = .ok (_, _) := rfl
  rw [stringRest, bind_of_ok hget, H.unescape_append]
  change Except.ok (String.ofList name.toList, rest) = _
  rw [String.ofList_toList]

theorem skipString_append (H : IsString raw) (rest : List Char) :
    skipString (raw ++ '"' :: rest) = .ok ((), rest) := by
  have hget : (get : Reader (List Char)) (raw ++ '"' :: rest) = .ok (_, _) := rfl
  rw [skipString, bind_of_ok hget, H.skipChars_append]
  rfl

theorem word_append (chars rest : List Char) : word chars (chars ++ rest) = .ok ((), rest) := by
  induction chars with
  | nil => rfl
  | cons char chars ih =>
    have hget : (get : Reader (List Char)) (char :: chars ++ rest) =
      .ok (char :: (chars ++ rest), char :: (chars ++ rest)) := rfl
    rw [word, bind_of_ok hget]
    simp only [if_true]
    exact ih

/-! ## Blanks and tokens -/

/-- The text consists of blanks. -/
def Blank (text : List Char) : Prop := ∀ char ∈ text, isBlank char = true

variable {blanks : List Char}

theorem Blank.nil : Blank [] := nofun

/-- Blanks before a token are passed over. -/
theorem Blank.peek_append (H : Blank blanks) (h : isBlank char = false) (text : List Char) :
    peek (blanks ++ char :: text) = .ok (char, char :: text) := by
  have hdrop : (blanks ++ char :: text).dropWhile isBlank = char :: text := by
    rw [List.dropWhile_append_of_pos H, List.dropWhile_cons_of_neg (by simp [h])]
  have hget : (get : Reader (List Char)) (blanks ++ char :: text) =
    .ok (blanks ++ char :: text, blanks ++ char :: text) := rfl
  rw [peek, bind_of_ok hget, hdrop]
  rfl

theorem advance_cons (char : Char) (text : List Char) :
    advance (char :: text) = .ok ((), text) := rfl

theorem Blank.next_append (H : Blank blanks) (h : isBlank char = false) (text : List Char) :
    next (blanks ++ char :: text) = .ok (char, text) := by
  rw [next, bind_of_ok (H.peek_append h text)]
  rfl

theorem Blank.token_append (H : Blank blanks) (h : isBlank char = false) (text : List Char) :
    token char (blanks ++ char :: text) = .ok ((), text) := by
  rw [token, bind_of_ok (H.next_append h text), if_pos rfl]
  rfl

theorem token_cons (h : isBlank char = false) (text : List Char) :
    token char (char :: text) = .ok ((), text) :=
  Blank.nil.token_append h text

theorem isBlank_of_isDigit (h : char.isDigit = true) : isBlank char = false := by
  rw [Bool.eq_false_iff]
  intro he
  simp only [isBlank, Bool.or_eq_true, decide_eq_true_eq] at he
  rcases he with ((rfl | rfl) | rfl) | rfl <;> cases h

theorem follows_of_isBlank (h : isBlank char = true) (text : List Char) :
    Follows (char :: text) := by
  simp only [isBlank, Bool.or_eq_true, decide_eq_true_eq] at h
  rcases h with ((rfl | rfl) | rfl) | rfl <;> exact .other rfl (by decide) (by decide) (by decide)

/-- Blanks before what can follow a value can follow it, too. -/
theorem Blank.follows (H : Blank blanks) (hrest : Follows rest) : Follows (blanks ++ rest) := by
  cases blanks with
  | nil => exact hrest
  | cons char blanks => exact follows_of_isBlank (H char List.mem_cons_self) _

/-- The reader takes `a` from the text, with blanks before it and more text after it. -/
def Takes (reader : Reader α) (text : List Char) (a : α) : Prop :=
  ∀ blanks rest, Blank blanks → Follows rest → reader (blanks ++ (text ++ rest)) = .ok (a, rest)

theorem Takes.map {reader : Reader α} {a : α} (H : Takes reader text a) (f : α → β) :
    Takes (f <$> reader) text (f a) := by
  intro blanks rest hblanks hrest
  rw [map_eq_pure_bind, bind_of_ok (H blanks rest hblanks hrest)]
  rfl

/-! ## Simple values -/

theorem takes_string {name : String} (H : Spells raw name.toList) :
    Takes string ('"' :: (raw ++ ['"'])) name := by
  intro blanks rest hblanks _
  rw [List.cons_append, List.append_assoc, List.singleton_append, string,
    bind_of_ok (hblanks.peek_append rfl _), if_pos rfl, bind_of_ok (advance_cons _ _),
    stringRest_append H]

theorem takes_natural {n bound : Nat} (hb : n < bound) (h : n < 2 ^ 53) :
    Takes (natural bound) (decimal n) n := by
  intro blanks rest hblanks hrest
  have hnumber := number_decimal hrest h
  cases hdigits : decimal n with
  | nil => exact absurd hdigits Nat.toDigits_ne_nil
  | cons digit more =>
    have hdigit : digit.isDigit = true := isDigit_of_mem_decimal (hdigits ▸ List.mem_cons_self)
    rw [hdigits] at hnumber
    rw [List.cons_append] at hnumber ⊢
    rw [natural, bind_of_ok (hblanks.peek_append (isBlank_of_isDigit hdigit) _),
      if_pos (by simp [hdigit]), bind_of_ok hnumber]
    simp only [if_pos hb]
    rfl

theorem takes_uint8 (n : UInt8) : Takes uint8 (decimal n.toNat) n := by
  intro blanks rest hblanks hrest
  have hsmall : n.toNat < 2 ^ 53 := Nat.lt_trans n.toNat_lt (by decide)
  rw [uint8, bind_of_ok (takes_natural n.toNat_lt hsmall blanks rest hblanks hrest)]
  change Except.ok (n.toNat.toUInt8, rest) = _
  rw [Nat.toUInt8, UInt8.ofNat_toNat]

theorem takes_uint32 (n : UInt32) : Takes uint32 (decimal n.toNat) n := by
  intro blanks rest hblanks hrest
  have hsmall : n.toNat < 2 ^ 53 := Nat.lt_trans n.toNat_lt (by decide)
  rw [uint32, bind_of_ok (takes_natural n.toNat_lt hsmall blanks rest hblanks hrest)]
  change Except.ok (n.toNat.toUInt32, rest) = _
  rw [Nat.toUInt32, UInt32.ofNat_toNat]

/-- The text begins with a character that is no blank and not the given one. -/
def Opens (other : Char) (text : List Char) : Prop :=
  ∃ char tail, text = char :: tail ∧ isBlank char = false ∧ char ≠ other

theorem Digits.opens {found : List Char} (H : Digits found) {other : Char}
    (h : other.isDigit = false) : Opens other found := by
  obtain ⟨digit, more, rfl⟩ := List.exists_cons_of_ne_nil H.ne_nil
  have hdigit := H.isDigit digit List.mem_cons_self
  refine ⟨digit, more, rfl, isBlank_of_isDigit hdigit, ?_⟩
  rintro rfl
  rw [hdigit] at h
  cases h

theorem takes_null : Takes null ['n', 'u', 'l', 'l'] () := by
  intro blanks rest hblanks _
  rw [null, List.cons_append, bind_of_ok (hblanks.peek_append rfl _)]
  exact word_append ['n', 'u', 'l', 'l'] rest

theorem takes_optional_null (reader : Reader α) :
    Takes (optional reader) ['n', 'u', 'l', 'l'] none := by
  intro blanks rest hblanks _
  have hword := word_append ['n', 'u', 'l', 'l'] rest
  rw [List.cons_append] at hword ⊢
  rw [optional, bind_of_ok (hblanks.peek_append rfl _), if_pos rfl, bind_of_ok hword]
  rfl

theorem takes_optional_some {reader : Reader α} {a : α} (H : Takes reader text a)
    (hopens : Opens 'n' text) : Takes (optional reader) text (some a) := by
  intro blanks rest hblanks hrest
  have htake := H [] rest Blank.nil hrest
  obtain ⟨char, tail, rfl, hchar, hne⟩ := hopens
  rw [List.nil_append, List.cons_append] at htake
  rw [optional, List.cons_append, bind_of_ok (hblanks.peek_append hchar _), if_neg hne,
    bind_of_ok htake]
  rfl

/-! ## Between brackets -/

/-- What stands between brackets after a first piece, up to the closing bracket: further pieces
behind commas, with blanks around all of them. -/
inductive Further (close : Char) : List (List Char) → List Char → Prop where
  | nil {blanks : List Char} : Blank blanks → Further close [] (blanks ++ [close])
  | cons {before after piece text : List Char} {pieces : List (List Char)} : Blank before →
      Blank after → Further close pieces text →
      Further close (piece :: pieces) (before ++ ',' :: (after ++ (piece ++ text)))

/-- What stands after an opening bracket, up to the closing one. -/
inductive Inside (close : Char) : List (List Char) → List Char → Prop where
  | nil {blanks : List Char} : Blank blanks → Inside close [] (blanks ++ [close])
  | cons {blanks piece text : List Char} {pieces : List (List Char)} : Blank blanks →
      Further close pieces text → Inside close (piece :: pieces) (blanks ++ (piece ++ text))

/-- Pieces that lead from one state to another, each of them as `P` says. -/
inductive Gathers (P : σ → List Char → σ → Prop) : σ → List (List Char) → σ → Prop where
  | nil {s : σ} : Gathers P s [] s
  | cons {s s' s'' : σ} {piece : List Char} {pieces : List (List Char)} :
      P s piece s' → Gathers P s' pieces s'' → Gathers P s (piece :: pieces) s''

namespace Gathers

variable {P Q : σ → List Char → σ → Prop} {s s' : σ} {pieces : List (List Char)}

theorem imp (H : Gathers P s pieces s') (h : ∀ s piece s', P s piece s' → Q s piece s') :
    Gathers Q s pieces s' := by
  induction H with
  | nil => exact .nil
  | cons hpiece _ ih => exact .cons (h _ _ _ hpiece) ih

theorem exists_of_mem (H : Gathers P s pieces s') :
    ∀ piece ∈ pieces, ∃ s s', P s piece s' := by
  induction H with
  | nil => nofun
  | cons hpiece _ ih => exact List.forall_mem_cons.mpr ⟨⟨_, _, hpiece⟩, ih⟩

end Gathers

/-- The pieces of a text lead an item reader from one state to another. -/
abbrev Collects (item : σ → Reader σ) : σ → List (List Char) → σ → Prop :=
  Gathers fun s => Takes (item s)

/-- A character that closes a bracket. -/
inductive Closing : Char → Prop where
  | list : Closing ']'
  | object : Closing '}'

namespace Closing

variable {close : Char}

theorem isBlank_eq (H : Closing close) : isBlank close = false := by
  cases H <;> rfl

theorem ne_comma (H : Closing close) : close ≠ ',' := by
  cases H <;> decide

theorem follows (H : Closing close) (rest : List Char) : Follows (close :: rest) := by
  cases H <;> exact .other rfl (by decide) (by decide) (by decide)

end Closing

theorem Follows.comma (rest : List Char) : Follows (',' :: rest) :=
  .other rfl (by decide) (by decide) (by decide)

variable {item : σ → Reader σ} {s s' : σ} {close : Char} {piece : List Char}
  {pieces : List (List Char)}

theorem Further.follows (H : Further close pieces text) (hclose : Closing close)
    (rest : List Char) : Follows (text ++ rest) := by
  cases H with
  | nil hblanks =>
    rw [List.append_assoc]
    exact hblanks.follows (hclose.follows rest)
  | cons hbefore =>
    rw [List.append_assoc]
    exact hbefore.follows (.comma _)

theorem Further.length_lt (H : Further close pieces text) : pieces.length < text.length := by
  induction H with
  | nil => simp
  | cons _ _ _ ih =>
    simp only [List.length_append, List.length_cons]
    omega

theorem Collects.items_eq (H : Collects item s (piece :: pieces) s')
    (hfurther : Further close pieces text) (hclose : Closing close) {bound : List Char}
    (hbound : pieces.length < bound.length) (hblanks : Blank blanks) (rest : List Char) :
    items close item bound s (blanks ++ (piece ++ (text ++ rest))) = .ok (s', rest) := by
  induction hfurther generalizing bound s piece blanks with
  | @nil before hbefore =>
    obtain ⟨_, bound, rfl⟩ := List.exists_cons_of_ne_nil (List.ne_nil_of_length_pos hbound)
    cases H with
    | cons hpiece hnil =>
      cases hnil
      have htake := hpiece blanks _ hblanks ((Further.nil hbefore).follows hclose rest)
      rw [items, bind_of_ok htake, List.append_assoc, List.singleton_append,
        bind_of_ok (hbefore.next_append hclose.isBlank_eq rest), if_neg hclose.ne_comma, if_pos rfl]
      rfl
  | @cons before after second text pieces hbefore hafter hmore ih =>
    obtain ⟨_, bound, rfl⟩ := List.exists_cons_of_ne_nil
      (List.ne_nil_of_length_pos (Nat.zero_lt_of_lt hbound))
    cases H with
    | cons hpiece hrest =>
      have hall : Further close (second :: pieces) _ := .cons hbefore hafter hmore
      have htake := hpiece blanks _ hblanks (hall.follows hclose rest)
      have hlength : pieces.length < bound.length := by
        simp only [List.length_cons] at hbound
        omega
      rw [items, bind_of_ok htake]
      simp only [List.append_assoc, List.cons_append]
      rw [bind_of_ok (hbefore.next_append rfl _), if_pos rfl]
      exact ih hrest hlength hafter

/-- The pieces between brackets are collected. The first one does not begin like the end. -/
theorem Collects.bracketed_eq (H : Collects item s pieces s') (hinside : Inside close pieces text)
    (hopens : ∀ piece ∈ pieces, Opens close piece) (hclose : Closing close) (rest : List Char) :
    bracketed close item s (text ++ rest) = .ok (s', rest) := by
  cases hinside with
  | nil hblanks =>
    cases H
    rw [List.append_assoc, List.singleton_append, bracketed,
      bind_of_ok (hblanks.peek_append hclose.isBlank_eq rest), if_pos rfl,
      bind_of_ok (advance_cons _ _)]
    rfl
  | @cons blanks piece text pieces hblanks hfurther =>
    obtain ⟨char, tail, rfl, hchar, hne⟩ := hopens _ List.mem_cons_self
    have hbound : pieces.length < (char :: tail ++ (text ++ rest)).length := by
      have := hfurther.length_lt
      simp only [List.length_append]
      omega
    have hitems := H.items_eq hfurther hclose hbound Blank.nil rest
    have hget : (get : Reader (List Char)) (char :: (tail ++ (text ++ rest))) = .ok (_, _) := rfl
    simp only [List.append_assoc, List.cons_append]
    rw [bracketed, bind_of_ok (hblanks.peek_append hchar _), if_neg hne, bind_of_ok hget]
    exact hitems

/-! ## Numerals of any kind -/

inductive IsSign : List Char → Prop where
  | nothing : IsSign []
  | minus : IsSign ['-']

/-- The whole part of a numeral, which starts with 0 only if it is 0. -/
structure IsWhole (found : List Char) : Prop extends Digits found where
  no_zero : ∀ second more, found ≠ '0' :: second :: more

inductive IsFraction : List Char → Prop where
  | nothing : IsFraction []
  | digits {found : List Char} : Digits found → IsFraction ('.' :: found)

inductive IsExponent : List Char → Prop where
  | nothing : IsExponent []
  | digits {letter : Char} {sign found : List Char} : letter = 'e' ∨ letter = 'E' →
      sign = [] ∨ sign = ['+'] ∨ sign = ['-'] → Digits found →
      IsExponent (letter :: (sign ++ found))

/-- A numeral of any kind. -/
inductive IsNumeral : List Char → Prop where
  | parts {sign whole fraction exponent : List Char} : IsSign sign → IsWhole whole →
      IsFraction fraction → IsExponent exponent →
      IsNumeral (sign ++ (whole ++ (fraction ++ exponent)))

theorem Digits.ne_of_not_isDigit {found : List Char} (H : Digits found)
    (h : char.isDigit = false) (rest tail : List Char) : found ++ rest ≠ char :: tail := by
  obtain ⟨digit, more, rfl⟩ := List.exists_cons_of_ne_nil H.ne_nil
  rintro he
  obtain ⟨rfl, -⟩ := List.cons.inj he
  rw [H.isDigit _ List.mem_cons_self] at h
  cases h

theorem IsFraction.fractionPart_append {fraction : List Char} (H : IsFraction fraction)
    (hdigit : NoDigit rest) (hpoint : ∀ tail, rest ≠ '.' :: tail) (atEnd : Fault) :
    ∃ found, fractionPart atEnd (fraction ++ rest) = .ok (found, rest) := by
  cases H with
  | nothing => exact ⟨[], fractionPart_of_ne_point hpoint atEnd⟩
  | digits hfound => exact ⟨_, hfound.someDigits_append hdigit atEnd⟩

theorem exponentSign_of_ne_sign (hminus : ∀ tail, text ≠ '-' :: tail)
    (hplus : ∀ tail, text ≠ '+' :: tail) : exponentSign text = .ok (false, text) := by
  have hget : (get : Reader (List Char)) text = .ok (text, text) := rfl
  rw [exponentSign, bind_of_ok hget]
  split
  · exact absurd rfl (hminus _)
  · exact absurd rfl (hplus _)
  · rfl

theorem exponentSign_append {sign found : List Char} (h : sign = [] ∨ sign = ['+'] ∨ sign = ['-'])
    (H : Digits found) (rest : List Char) :
    ∃ negative, exponentSign (sign ++ (found ++ rest)) = .ok (negative, found ++ rest) := by
  rcases h with rfl | rfl | rfl
  · have hminus := H.ne_of_not_isDigit (show '-'.isDigit = false from rfl) rest
    have hplus := H.ne_of_not_isDigit (show '+'.isDigit = false from rfl) rest
    exact ⟨false, exponentSign_of_ne_sign hminus hplus⟩
  · exact ⟨false, rfl⟩
  · exact ⟨true, rfl⟩

theorem IsExponent.exponentPart_append {exponent : List Char} (H : IsExponent exponent)
    (hrest : Follows rest) (atEnd : Fault) :
    ∃ found, exponentPart atEnd (exponent ++ rest) = .ok (found, rest) := by
  cases H with
  | nothing => exact ⟨none, exponentPart_of_ne_letter hrest.ne_letter atEnd⟩
  | @digits letter sign found hletter hsign hfound =>
    obtain ⟨negative, hnegative⟩ := exponentSign_append hsign hfound rest
    have hsize := hfound.someDigits_append hrest.noDigit atEnd
    have hpart : exponentPart atEnd (letter :: (sign ++ (found ++ rest))) = (do
        let negative ← exponentSign
        let found ← someDigits atEnd
        let size : Int := digitsValue found
        pure (some (if negative then -size else size)) : Reader (Option Int))
          (sign ++ (found ++ rest)) := by
      rcases hletter with rfl | rfl <;> rfl
    rw [List.cons_append, List.append_assoc, hpart, bind_of_ok hnegative, bind_of_ok hsize]
    exact ⟨_, rfl⟩

theorem IsExponent.ne_point {exponent : List Char} (H : IsExponent exponent) (hrest : Follows rest)
    (tail : List Char) : exponent ++ rest ≠ '.' :: tail := by
  cases H with
  | nothing => exact hrest.ne_point tail
  | digits hletter =>
    rintro he
    obtain ⟨rfl, -⟩ := List.cons.inj he
    rcases hletter with h | h <;> cases h

theorem IsExponent.noDigit {exponent : List Char} (H : IsExponent exponent)
    (hrest : Follows rest) : NoDigit (exponent ++ rest) := by
  cases H with
  | nothing => exact hrest.noDigit
  | digits hletter =>
    intro char hchar
    obtain rfl := Option.some.inj hchar
    rcases hletter with rfl | rfl <;> rfl

theorem IsFraction.noDigit {fraction : List Char} (H : IsFraction fraction)
    (hrest : NoDigit rest) : NoDigit (fraction ++ rest) := by
  cases H with
  | nothing => exact hrest
  | digits =>
    intro char hchar
    obtain rfl := Option.some.inj hchar
    rfl

theorem IsWhole.wholePart_append {found : List Char} (H : IsWhole found) (hrest : NoDigit rest)
    (atEnd : Fault) : wholePart atEnd (found ++ rest) = .ok (found, rest) :=
  wholePart_of_ok (H.someDigits_append hrest atEnd) H.no_zero

theorem IsNumeral.numeral_append (H : IsNumeral text) (hrest : Follows rest) (atEnd : Fault) :
    ∃ n, numeral atEnd (text ++ rest) = .ok (n, rest) := by
  cases H with
  | @parts sign whole fraction exponent hsign hwhole hfraction hexponent =>
    have hdigit := hexponent.noDigit hrest
    have hwholePart := hwhole.wholePart_append (hfraction.noDigit hdigit) atEnd
    obtain ⟨found, hfound⟩ := hfraction.fractionPart_append hdigit (hexponent.ne_point hrest) atEnd
    obtain ⟨power, hpower⟩ := hexponent.exponentPart_append hrest atEnd
    simp only [List.append_assoc]
    cases hsign with
    | nothing =>
      have hminus := hwhole.ne_of_not_isDigit (show '-'.isDigit = false from rfl)
        (fraction ++ (exponent ++ rest))
      rw [List.nil_append, numeral_of_ne_minus hminus, bind_of_ok hwholePart, bind_of_ok hfound,
        bind_of_ok hpower]
      exact ⟨_, rfl⟩
    | minus =>
      have hminus : numeral atEnd ('-' :: (whole ++ (fraction ++ (exponent ++ rest)))) = (do
          let whole ← wholePart atEnd
          let fraction ← fractionPart atEnd
          let exponent ← exponentPart atEnd
          pure { negative := true, whole, fraction, exponent } : Reader Numeral)
            (whole ++ (fraction ++ (exponent ++ rest))) := rfl
      rw [List.singleton_append, hminus, bind_of_ok hwholePart, bind_of_ok hfound,
        bind_of_ok hpower]
      exact ⟨_, rfl⟩

/-- A numeral begins with its sign or a digit. -/
theorem IsNumeral.exists_cons (H : IsNumeral text) : ∃ char tail, text = char :: tail ∧
    isBlank char = false ∧ (char = '-' || char.isDigit) = true := by
  cases H with
  | parts hsign hwhole =>
    cases hsign with
    | nothing =>
      obtain ⟨digit, more, rfl⟩ := List.exists_cons_of_ne_nil hwhole.ne_nil
      have hdigit := hwhole.isDigit digit List.mem_cons_self
      exact ⟨digit, _, rfl, isBlank_of_isDigit hdigit, by simp [hdigit]⟩
    | minus => exact ⟨'-', _, rfl, rfl, rfl⟩

/-! ## Values that nobody asked for -/

/-- A member of an object as it is written. -/
structure MemberText where
  /-- What stands between the quotes of the name. -/
  name : List Char
  /-- Blanks before the colon and after it. -/
  before : List Char := []
  after : List Char := []
  value : List Char

namespace MemberText

def written (member : MemberText) : List Char :=
  '"' :: (member.name ++ '"' :: (member.before ++ ':' :: (member.after ++ member.value)))

/-- Only blanks stand around the colon. -/
structure Proper (member : MemberText) : Prop where
  before : Blank member.before
  after : Blank member.after

theorem length_value_le (member : MemberText) :
    member.value.length ≤ member.written.length := by
  simp only [written, List.length_cons, List.length_append]
  omega

end MemberText

/-- The text of any value, without blanks around it. -/
inductive IsValue : List Char → Prop where
  | null : IsValue ['n', 'u', 'l', 'l']
  | true : IsValue ['t', 'r', 'u', 'e']
  | false : IsValue ['f', 'a', 'l', 's', 'e']
  | numeral {text : List Char} : IsNumeral text → IsValue text
  | string {raw : List Char} : IsString raw → IsValue ('"' :: (raw ++ ['"']))
  | list {pieces : List (List Char)} {text : List Char} : (∀ piece ∈ pieces, IsValue piece) →
      Inside ']' pieces text → IsValue ('[' :: text)
  | object {members : List MemberText} {text : List Char} :
      (∀ member ∈ members, IsString member.name) → (∀ member ∈ members, member.Proper) →
      (∀ member ∈ members, IsValue member.value) →
      Inside '}' (members.map MemberText.written) text → IsValue ('{' :: text)

theorem IsValue.opens (H : IsValue text) : Opens ']' text := by
  cases H with
  | null => exact ⟨_, _, rfl, rfl, by decide⟩
  | true => exact ⟨_, _, rfl, rfl, by decide⟩
  | false => exact ⟨_, _, rfl, rfl, by decide⟩
  | numeral H =>
    obtain ⟨char, tail, rfl, hblank, hchar⟩ := H.exists_cons
    refine ⟨char, tail, rfl, hblank, ?_⟩
    rintro rfl
    cases hchar
  | string => exact ⟨_, _, rfl, rfl, by decide⟩
  | list => exact ⟨_, _, rfl, rfl, by decide⟩
  | object => exact ⟨_, _, rfl, rfl, by decide⟩

theorem opens_member (member : MemberText) : Opens '}' member.written :=
  ⟨_, _, rfl, rfl, by decide⟩

theorem opens_members (entries : List MemberText) :
    ∀ piece ∈ entries.map MemberText.written, Opens '}' piece := by
  intro piece hm
  obtain ⟨entry, -, rfl⟩ := List.mem_map.mp hm
  exact opens_member entry

theorem collects_of_takes (H : ∀ piece ∈ pieces, Takes (item s) piece s) :
    Collects item s pieces s := by
  induction pieces with
  | nil => exact .nil
  | cons piece pieces ih =>
    exact .cons (H piece List.mem_cons_self)
      (ih fun other hm => H other (List.mem_cons_of_mem _ hm))

theorem Further.length_lt_of_mem (H : Further close pieces text) (hm : piece ∈ pieces) :
    piece.length < text.length := by
  induction H with
  | nil => cases hm
  | cons _ _ _ ih =>
    simp only [List.length_append, List.length_cons]
    rcases List.mem_cons.mp hm with rfl | hm
    · omega
    · have := ih hm
      omega

theorem Inside.length_lt_of_mem (H : Inside close pieces text) (hm : piece ∈ pieces) :
    piece.length < text.length := by
  cases H with
  | nil => cases hm
  | cons _ hfurther =>
    simp only [List.length_append]
    rcases List.mem_cons.mp hm with rfl | hm
    · have := hfurther.length_lt
      omega
    · have := hfurther.length_lt_of_mem hm
      omega

theorem takes_skipMember {member : MemberText} {value : Reader Unit} (hname : IsString member.name)
    (H : member.Proper) (hvalue : Takes value member.value ()) :
    Takes (do token '"'; skipString; token ':'; value) member.written () := by
  intro blanks rest hblanks hrest
  have htake := hvalue member.after rest H.after hrest
  simp only [MemberText.written, List.cons_append, List.append_assoc]
  rw [bind_of_ok (hblanks.token_append rfl _), bind_of_ok (skipString_append hname _),
    bind_of_ok (H.before.token_append rfl _)]
  exact htake

theorem takes_skipValue_word (first : Char) (bound : List Char)
    (h : text = ['n', 'u', 'l', 'l'] ∨ text = ['t', 'r', 'u', 'e'] ∨
      text = ['f', 'a', 'l', 's', 'e']) : Takes (skipValue (first :: bound)) text () := by
  intro blanks rest hblanks _
  have hword := word_append text rest
  rcases h with rfl | rfl | rfl <;>
  · rw [skipValue, List.cons_append, bind_of_ok (hblanks.peek_append rfl _), if_neg (by decide)]
    exact hword

/-- A value that nobody asked for is skipped, whatever it is, if the bound is as long as its
text. -/
theorem IsValue.takes_skipValue (H : IsValue text) {bound : List Char}
    (hbound : text.length ≤ bound.length) (first : Char) :
    Takes (skipValue (first :: bound)) text () := by
  induction H generalizing bound first with
  | null => exact takes_skipValue_word first bound (.inl rfl)
  | true => exact takes_skipValue_word first bound (.inr (.inl rfl))
  | false => exact takes_skipValue_word first bound (.inr (.inr rfl))
  | numeral H =>
    intro blanks rest hblanks hrest
    obtain ⟨n, hn⟩ := H.numeral_append hrest .malformed
    obtain ⟨char, tail, rfl, hblank, hchar⟩ := H.exists_cons
    rw [List.cons_append] at hn
    rw [skipValue, List.cons_append, bind_of_ok (hblanks.peek_append hblank _), if_pos hchar,
      bind_of_ok hn]
    rfl
  | @string raw H =>
    intro blanks rest hblanks _
    have hskip := skipString_append H rest
    rw [skipValue, List.cons_append, bind_of_ok (hblanks.peek_append rfl _), if_neg (by decide)]
    simp only [List.append_assoc, List.singleton_append]
    rw [bind_of_ok (advance_cons _ _)]
    exact hskip
  | @list pieces text hpieces hinside ih =>
    cases bound with
    | nil => cases hbound
    | cons second bound =>
      have hcollects : Collects (fun _ => skipValue (second :: bound)) () pieces () := by
        refine collects_of_takes fun piece hm => ih piece hm ?_ second
        have := hinside.length_lt_of_mem hm
        simp only [List.length_cons] at hbound
        omega
      intro blanks rest hblanks _
      rw [skipValue, List.cons_append, bind_of_ok (hblanks.peek_append rfl _), if_neg (by decide)]
      simp only
      rw [bind_of_ok (advance_cons _ _)]
      exact hcollects.bracketed_eq hinside (fun piece hm => (hpieces piece hm).opens) .list rest
  | @object members text hnames hproper hvalues hinside ih =>
    cases bound with
    | nil => cases hbound
    | cons second bound =>
      have hcollects : Collects
          (fun _ => do token '"'; skipString; token ':'; skipValue (second :: bound)) ()
          (members.map MemberText.written) () := by
        refine collects_of_takes fun piece hm => ?_
        obtain ⟨member, hmember, rfl⟩ := List.mem_map.mp hm
        have hlength := hinside.length_lt_of_mem hm
        have hvalue := member.length_value_le
        refine takes_skipMember (hnames member hmember) (hproper member hmember)
          (ih member hmember ?_ second)
        simp only [List.length_cons] at hbound
        omega
      intro blanks rest hblanks _
      rw [skipValue, List.cons_append, bind_of_ok (hblanks.peek_append rfl _), if_neg (by decide)]
      simp only
      rw [bind_of_ok (advance_cons _ _)]
      exact hcollects.bracketed_eq hinside (opens_members members) .object rest

theorem IsValue.takes_skip (H : IsValue text) : Takes skip text () := by
  intro blanks rest hblanks hrest
  have hget : (get : Reader (List Char)) (blanks ++ (text ++ rest)) = .ok (_, _) := rfl
  have hbound : text.length ≤ (blanks ++ (text ++ rest)).length := by
    simp only [List.length_append]
    omega
  rw [skip, bind_of_ok hget]
  exact H.takes_skipValue hbound ' ' blanks rest hblanks hrest

/-! ## Whole texts -/

/-- A value that stands alone, with blanks around it, is read. -/
theorem Takes.read_eq {reader : Reader α} {a : α} (H : Takes reader text a)
    {before after : List Char} (hbefore : Blank before) (hafter : Blank after) :
    read reader (before ++ (text ++ after)) = .ok a := by
  have hfollows : Follows after := by
    have := hafter.follows .nothing
    rwa [List.append_nil] at this
  have hall : after.all isBlank = true := List.all_eq_true.mpr hafter
  rw [read, H before after hbefore hfollows]
  change (if after.all isBlank then _ else _) = _
  rw [if_pos hall]
  rfl

end Keystroke.Json
