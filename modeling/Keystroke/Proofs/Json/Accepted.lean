import Keystroke.Proofs.Json.Records

/-!
# What the readers accept

Whatever a reader accepts is written as a value can be written. `TakesOnly reader P` says that a
reader passes over blanks and then takes a piece of the text of which `P` holds, together with what
is read. Unlike in `Takes`, it does not matter what follows the piece. What is skipped is a value
(`takesOnly_skip`), a natural number is read from its decimal digits (`takesOnly_natural`), and a
record or a choice from what it is written as (`takesOnly_record`, `takesOnly_variant`).
-/

namespace Keystroke.Json

variable {α β σ : Type} {text rest raw chars : List Char} {char : Char}

/-! ## Parts of a text -/

/-- A reader that goes on has found something first. -/
theorem ok_of_bind {reader : Reader α} {next : α → Reader β} {b : β}
    (h : (reader >>= next) text = .ok (b, rest)) :
    ∃ a middle, reader text = .ok (a, middle) ∧ next a middle = .ok (b, rest) := by
  change (reader text >>= fun p => next p.1 p.2) = _ at h
  cases hfirst : reader text with
  | error fault =>
    rw [hfirst] at h
    cases h
  | ok found =>
    rw [hfirst] at h
    exact ⟨found.1, found.2, rfl, h⟩

theorem bind_get (next : List Char → Reader α) (text : List Char) :
    ((get : Reader (List Char)) >>= next) text = next text text := rfl

theorem bind_set (next : PUnit → Reader α) (other text : List Char) :
    ((set other : Reader PUnit) >>= next) text = next ⟨⟩ other := rfl

/-- What fails without a look at the text fails for every text. -/
theorem ok_of_bind_lift {x : Except Fault α} {next : α → Reader β} {b : β}
    (h : ((x : Reader α) >>= next) text = .ok (b, rest)) :
    ∃ a, x = .ok a ∧ next a text = .ok (b, rest) := by
  cases x with
  | error fault => cases h
  | ok a => exact ⟨a, rfl, h⟩

theorem Blank.append {blanks more : List Char} (H : Blank blanks) (hmore : Blank more) :
    Blank (blanks ++ more) := fun char hm => (List.mem_append.mp hm).elim (H char) (hmore char)

theorem blank_takeWhile (text : List Char) : Blank (text.takeWhile isBlank) :=
  fun _ hm => List.mem_takeWhile_imp hm

theorem eq_of_peek (h : peek text = .ok (char, rest)) :
    ∃ blanks tail, Blank blanks ∧ text = blanks ++ rest ∧ rest = char :: tail := by
  rw [peek, bind_get, bind_set] at h
  cases hdrop : text.dropWhile isBlank with
  | nil =>
    rw [hdrop] at h
    cases h
  | cons first tail =>
    rw [hdrop] at h
    cases h
    refine ⟨_, tail, blank_takeWhile text, ?_, rfl⟩
    rw [← hdrop, List.takeWhile_append_dropWhile]

theorem eq_of_next (h : next text = .ok (char, rest)) :
    ∃ blanks, Blank blanks ∧ text = blanks ++ char :: rest := by
  obtain ⟨first, _, hpeek, hrest⟩ := ok_of_bind h
  obtain ⟨blanks, tail, hblanks, rfl, rfl⟩ := eq_of_peek hpeek
  cases hrest
  exact ⟨blanks, hblanks, rfl⟩

theorem eq_of_token (h : token char text = .ok ((), rest)) :
    ∃ blanks, Blank blanks ∧ text = blanks ++ char :: rest := by
  obtain ⟨_, _, hnext, h⟩ := ok_of_bind h
  split at h
  · next heq =>
    cases h
    exact heq ▸ eq_of_next hnext
  · cases h

theorem eq_of_word (h : word chars text = .ok ((), rest)) : text = chars ++ rest := by
  induction chars generalizing text with
  | nil =>
    cases h
    rfl
  | cons char chars ih =>
    rw [word, bind_get] at h
    cases text with
    | nil => cases h
    | cons first text =>
      simp only at h
      split at h
      · next heq =>
        rw [bind_set] at h
        rw [heq, ih h]
        rfl
      · cases h

/-! ## Strings -/

theorem ok_of_map {α β ε : Type} {x : Except ε α} {f : α → β} {b : β}
    (h : (do pure (f (← x))) = .ok b) : ∃ a, x = .ok a ∧ b = f a := by
  cases x with
  | error error => cases h
  | ok a =>
    cases h
    exact ⟨a, rfl, rfl⟩

theorem spells_of_unescape (h : unescape text = .ok (chars, rest)) :
    ∃ raw, text = raw ++ '"' :: rest ∧ Spells raw chars := by
  fun_induction unescape text generalizing chars with
  | case2 tail =>
    cases h
    exact ⟨[], rfl, .nil⟩
  | case7 a b c d high hhigh _ hh e f g i text low hlow hl _ ih =>
    obtain ⟨⟨more, _⟩, htext, hmore⟩ := ok_of_map h
    cases hmore
    obtain ⟨raw, rfl, hraw⟩ := ih htext
    exact ⟨_, rfl, .surrogates hhigh hh hlow hl hraw⟩
  | case10 a b c d text n hn hlow hhigh _ ih =>
    obtain ⟨⟨more, _⟩, htext, hmore⟩ := ok_of_map h
    cases hmore
    obtain ⟨raw, rfl, hraw⟩ := ih htext
    exact ⟨_, rfl, .codeUnit hn (eq_false_of_ne_true hlow) (eq_false_of_ne_true hhigh) hraw⟩
  | case13 letter text _ char hletter _ ih =>
    obtain ⟨⟨more, _⟩, htext, hmore⟩ := ok_of_map h
    cases hmore
    obtain ⟨raw, rfl, hraw⟩ := ih htext
    exact ⟨_, rfl, .letter hletter hraw⟩
  | case15 char tail hquote hslash hcontrol ih =>
    obtain ⟨⟨more, _⟩, htext, hmore⟩ := ok_of_map h
    cases hmore
    obtain ⟨raw, rfl, hraw⟩ := ih htext
    exact ⟨_, rfl, .plain hquote hslash hcontrol hraw⟩
  | _ => cases h

theorem isString_of_skipChars (h : skipChars text = .ok rest) :
    ∃ raw, text = raw ++ '"' :: rest ∧ IsString raw := by
  fun_induction skipChars text with
  | case2 tail =>
    cases h
    exact ⟨[], rfl, .nil⟩
  | case5 a b c d text n hn _ ih =>
    obtain ⟨raw, rfl, hraw⟩ := ih h
    exact ⟨_, rfl, .codeUnit hn hraw⟩
  | case8 letter text _ char hletter _ ih =>
    obtain ⟨raw, rfl, hraw⟩ := ih h
    exact ⟨_, rfl, .letter hletter hraw⟩
  | case10 char tail hquote hslash hcontrol ih =>
    obtain ⟨raw, rfl, hraw⟩ := ih h
    exact ⟨_, rfl, .plain hquote hslash hcontrol hraw⟩
  | _ => cases h

theorem spells_of_stringRest {name : String} (h : stringRest text = .ok (name, rest)) :
    ∃ raw, text = raw ++ '"' :: rest ∧ Spells raw name.toList := by
  rw [stringRest, bind_get] at h
  obtain ⟨⟨chars, _⟩, hread, h⟩ := ok_of_bind_lift h
  cases h
  rw [String.toList_ofList]
  exact spells_of_unescape hread

theorem isString_of_skipString (h : skipString text = .ok ((), rest)) :
    ∃ raw, text = raw ++ '"' :: rest ∧ IsString raw := by
  rw [skipString, bind_get] at h
  obtain ⟨_, hskip, h⟩ := ok_of_bind_lift h
  cases h
  exact isString_of_skipChars hskip

/-! ## Numerals -/

section
variable {found : List Char} {atEnd : Fault}

theorem digits_of_someDigits (h : someDigits atEnd text = .ok (found, rest)) :
    text = found ++ rest ∧ Digits found := by
  obtain ⟨first, _, hdigits, h⟩ := ok_of_bind h
  cases hdigits
  have htext : text = text.takeWhile Char.isDigit ++ text.dropWhile Char.isDigit :=
    List.takeWhile_append_dropWhile.symm
  have hall : ∀ digit ∈ text.takeWhile Char.isDigit, digit.isDigit = true :=
    fun _ hm => List.mem_takeWhile_imp hm
  cases hfound : text.takeWhile Char.isDigit with
  | nil =>
    rw [hfound] at h
    cases h
  | cons digit more =>
    rw [hfound] at h htext hall
    cases h
    exact ⟨htext, List.cons_ne_nil _ _, hall⟩

theorem isWhole_of_wholePart (h : wholePart atEnd text = .ok (found, rest)) :
    text = found ++ rest ∧ IsWhole found := by
  obtain ⟨first, _, hdigits, hrest⟩ := ok_of_bind h
  obtain ⟨rfl, hfound⟩ := digits_of_someDigits hdigits
  split at hrest
  · cases hrest
  · next hzero =>
    cases hrest
    exact ⟨rfl, hfound, hzero⟩

theorem isFraction_of_fractionPart (h : fractionPart atEnd text = .ok (found, rest)) :
    ∃ written, text = written ++ rest ∧ IsFraction written ∧ (found = [] → written = []) := by
  rw [fractionPart, bind_get] at h
  split at h
  · rw [bind_set] at h
    obtain ⟨rfl, hfound⟩ := digits_of_someDigits h
    exact ⟨_, rfl, .digits hfound, fun hnil => absurd hnil hfound.ne_nil⟩
  · cases h
    exact ⟨[], rfl, .nothing, fun _ => rfl⟩

theorem eq_of_exponentSign {negative : Bool} (h : exponentSign text = .ok (negative, rest)) :
    ∃ sign, text = sign ++ rest ∧ (sign = [] ∨ sign = ['+'] ∨ sign = ['-']) := by
  rw [exponentSign, bind_get] at h
  split at h
  · rw [bind_set] at h
    cases h
    exact ⟨['-'], rfl, .inr (.inr rfl)⟩
  · rw [bind_set] at h
    cases h
    exact ⟨['+'], rfl, .inr (.inl rfl)⟩
  · cases h
    exact ⟨[], rfl, .inl rfl⟩

theorem isExponent_of_exponentPart {exponent : Option Int}
    (h : exponentPart atEnd text = .ok (exponent, rest)) :
    ∃ written, text = written ++ rest ∧ IsExponent written ∧ (exponent = none → written = []) := by
  have hafter : ∀ {letter tail}, letter = 'e' ∨ letter = 'E' →
      (do
        let negative ← exponentSign
        let found ← someDigits atEnd
        let size : Int := digitsValue found
        pure (some (if negative then -size else size)) : Reader (Option Int)) tail =
          .ok (exponent, rest) →
      ∃ written, letter :: tail = written ++ rest ∧ IsExponent written ∧
        (exponent = none → written = []) := by
    intro letter tail hletter htail
    obtain ⟨negative, _, hsign, hdigits⟩ := ok_of_bind htail
    obtain ⟨found, _, hfound, hend⟩ := ok_of_bind hdigits
    obtain ⟨sign, rfl, hissign⟩ := eq_of_exponentSign hsign
    obtain ⟨rfl, hisfound⟩ := digits_of_someDigits hfound
    cases hend
    exact ⟨letter :: (sign ++ found), by simp, .digits hletter hissign hisfound, nofun⟩
  rw [exponentPart, bind_get] at h
  split at h
  · rw [bind_set] at h
    exact hafter (.inl rfl) h
  · rw [bind_set] at h
    exact hafter (.inr rfl) h
  · cases h
    exact ⟨[], rfl, .nothing, fun _ => rfl⟩

/-- A numeral is read from one. Without sign, fraction and exponent it is its whole part. -/
theorem isNumeral_of_numeral {n : Numeral} (h : numeral atEnd text = .ok (n, rest)) :
    ∃ written, text = written ++ rest ∧ IsNumeral written ∧ IsWhole n.whole ∧
      (n.negative = false → n.fraction = [] → n.exponent = none → written = n.whole) := by
  -- with a sign or without one, the rest is read in the same way
  have hafter : ∀ (negative : Bool) {sign tail}, IsSign sign → (negative = false → sign = []) →
      (do
        let whole ← wholePart atEnd
        let fraction ← fractionPart atEnd
        let exponent ← exponentPart atEnd
        pure { negative, whole, fraction, exponent } : Reader Numeral) tail = .ok (n, rest) →
      ∃ written, sign ++ tail = written ++ rest ∧ IsNumeral written ∧ IsWhole n.whole ∧
        (n.negative = false → n.fraction = [] → n.exponent = none → written = n.whole) := by
    intro negative sign tail hsign hpositive htail
    obtain ⟨whole, _, hwhole, hmore⟩ := ok_of_bind htail
    obtain ⟨_, _, hfraction, hmost⟩ := ok_of_bind hmore
    obtain ⟨_, _, hexponent, hend⟩ := ok_of_bind hmost
    obtain ⟨rfl, hiswhole⟩ := isWhole_of_wholePart hwhole
    obtain ⟨fraction, rfl, hisfraction, hinteger⟩ := isFraction_of_fractionPart hfraction
    obtain ⟨exponent, rfl, hisexponent, hplain⟩ := isExponent_of_exponentPart hexponent
    cases hend
    refine ⟨sign ++ (whole ++ (fraction ++ exponent)), by simp only [List.append_assoc],
      .parts hsign hiswhole hisfraction hisexponent, hiswhole, fun hnegative hnone hno => ?_⟩
    rw [hpositive hnegative, hinteger hnone, hplain hno, List.append_nil, List.append_nil,
      List.nil_append]
  rw [numeral, bind_get] at h
  split at h
  · rw [bind_set] at h
    exact hafter true .minus (fun he => absurd he.symm Bool.false_ne_true) h
  · exact hafter false .nothing (fun _ => rfl) h

end

/-! ## Decimal digits -/

theorem decimal_of_lt_ten {n : Nat} (h : n < 10) : decimal n = [n.digitChar] := by
  rw [decimal, Nat.toDigits_eq_if (by decide), if_pos h]

theorem decimal_append_digit {n d : Nat} (hn : 0 < n) (hd : d < 10) :
    decimal (10 * n + d) = decimal n ++ [d.digitChar] := by
  have hlarge : ¬10 * n + d < 10 := by omega
  have hdiv : (10 * n + d) / 10 = n := by omega
  have hmod : (10 * n + d) % 10 = d := by omega
  rw [decimal, Nat.toDigits_eq_if (by decide), if_neg hlarge, hdiv, hmod]

/-- A digit is the one of its value. -/
theorem digitChar_value {digit : Char} (h : digit.isDigit = true) :
    digit.toNat - '0'.toNat < 10 ∧ (digit.toNat - '0'.toNat).digitChar = digit := by
  have hzero : '0'.toNat = 48 := rfl
  have hnine : '9'.toNat = 57 := rfl
  have hrange := Char.isDigit_iff_toNat.mp h
  have hchar : ∀ n < 10, n.digitChar.toNat = n + 48 := by decide
  have hvalue : digit.toNat - '0'.toNat < 10 := by omega
  refine ⟨hvalue, Char.toNat_inj.mp ?_⟩
  rw [hchar _ hvalue]
  omega

theorem digitsValue_pos {found : List Char} (H : Digits found) (h : found.head? ≠ some '0') :
    0 < digitsValue found := by
  obtain ⟨digit, more, rfl⟩ := List.exists_cons_of_ne_nil H.ne_nil
  have hzero : '0'.toNat = 48 := rfl
  have hrange := Char.isDigit_iff_toNat.mp (H.isDigit digit List.mem_cons_self)
  have hne : digit.toNat ≠ 48 := fun he => h (congrArg some (Char.toNat_inj.mp he))
  have hfirst : 0 < appendDigit 0 digit := by
    rw [appendDigit]
    omega
  exact Nat.lt_of_lt_of_le hfirst (le_foldl_appendDigit more _)

/-- The digits of a whole part are the decimal digits of their value. -/
theorem IsWhole.decimal_eq {found : List Char} (H : IsWhole found) :
    decimal (digitsValue found) = found := by
  -- the last digit is the remainder by ten; what comes before it does not begin with a zero either
  induction found using List.reverseRecOn with
  | nil => exact absurd rfl H.ne_nil
  | append_singleton first digit ih =>
    obtain ⟨hsmall, hdigit⟩ := digitChar_value (H.isDigit digit (by simp))
    rw [digitsValue_append, List.foldl_cons, List.foldl_nil, appendDigit]
    by_cases hfirst : first = []
    · rw [hfirst, digitsValue, List.foldl_nil, Nat.mul_zero, Nat.zero_add,
        decimal_of_lt_ten hsmall, hdigit]
      rfl
    · have hhead : first.head? ≠ some '0' := by
        intro hhead
        obtain ⟨tail, rfl⟩ := List.head?_eq_some_iff.mp hhead
        obtain ⟨second, more, htail⟩ : ∃ second more, tail ++ [digit] = second :: more :=
          List.exists_cons_of_ne_nil (List.append_ne_nil_of_right_ne_nil _ (List.cons_ne_nil _ _))
        exact H.no_zero second more (by rw [List.cons_append, htail])
      have hdigits : Digits first :=
        ⟨hfirst, fun digit hm => H.isDigit digit (List.mem_append_left _ hm)⟩
      have hwhole : IsWhole first :=
        ⟨hdigits, fun second more he => hhead (by rw [he]; rfl)⟩
      rw [decimal_append_digit (digitsValue_pos hdigits hhead) hsmall, ih hwhole, hdigit]

theorem eq_of_absorb {digits : List Char} {value n : Nat} (h : absorb value digits = (n, [])) :
    n = digits.foldl appendDigit value := by
  induction digits generalizing value with
  | nil =>
    cases h
    rfl
  | cons digit digits ih =>
    rw [absorb] at h
    split at h
    · exact ih h
    · cases h

theorem eq_of_natural? {n : Numeral} {value : Nat} (h : n.natural? = some value) :
    n.negative = false ∧ n.fraction = [] ∧ n.exponent = none ∧ value = digitsValue n.whole := by
  rw [Numeral.natural?] at h
  split at h
  · cases h
  · next hplain =>
    simp only [Bool.or_eq_true, Bool.not_eq_true', Option.isSome_iff_ne_none, not_or, ne_eq,
      Bool.not_eq_true, Bool.not_eq_false, List.isEmpty_iff, not_not] at hplain
    obtain ⟨⟨hnegative, hfraction⟩, hexponent⟩ := hplain
    split at h
    · next habsorb =>
      cases h
      exact ⟨hnegative, hfraction, hexponent, eq_of_absorb habsorb⟩
    · cases h

theorem eq_of_number {n : Nat} (h : number text = .ok (some n, rest)) :
    text = decimal n ++ rest := by
  obtain ⟨found, _, hnumeral, hrest⟩ := ok_of_bind h
  obtain ⟨written, rfl, -, hwhole, hplain⟩ := isNumeral_of_numeral hnumeral
  split at hrest
  · cases hrest
  · obtain ⟨hnatural, rfl⟩ := Prod.mk.inj (Except.ok.inj hrest)
    obtain ⟨hnegative, hfraction, hexponent, rfl⟩ := eq_of_natural? hnatural
    rw [hplain hnegative hfraction hexponent, hwhole.decimal_eq]

/-! ## Simple values -/

/-- The reader takes nothing but pieces of which `P` holds, and the blanks before them. -/
def TakesOnly (reader : Reader α) (P : List Char → α → Prop) : Prop :=
  ∀ ⦃text rest a⦄, reader text = .ok (a, rest) →
    ∃ blanks piece, Blank blanks ∧ text = blanks ++ (piece ++ rest) ∧ P piece a

theorem not_ok_of_wrongKind {a : α} : wrongKind text ≠ .ok (a, rest) := by
  have hafter : ∀ {β : Type} {first : Reader β} {text},
      (first >>= fun _ => (refuse .unfit : Reader α)) text ≠ .ok (a, rest) := by
    intro β first text h
    obtain ⟨_, _, -, hrefuse⟩ := ok_of_bind h
    cases hrefuse
  intro h
  obtain ⟨char, _, -, hrest⟩ := ok_of_bind h
  split at hrest
  · exact hafter hrest
  · split at hrest
    · exact hafter hrest
    · exact hafter hrest
    · exact hafter hrest
    · obtain ⟨_, _, -, hstring⟩ := ok_of_bind hrest
      exact hafter hstring
    · cases hrest
    · cases hrest
    · cases hrest

theorem takesOnly_natural (bound : Nat) :
    TakesOnly (natural bound) fun piece n => piece = decimal n ∧ n < bound := by
  intro text rest n h
  obtain ⟨char, _, hpeek, hrest⟩ := ok_of_bind h
  obtain ⟨blanks, tail, hblanks, rfl, rfl⟩ := eq_of_peek hpeek
  split at hrest
  · obtain ⟨found, _, hnumber, hend⟩ := ok_of_bind hrest
    split at hend
    · split at hend
      · next hbound =>
        cases hend
        exact ⟨blanks, _, hblanks, by rw [eq_of_number hnumber], rfl, hbound⟩
      · cases hend
    · cases hend
  · exact absurd hrest not_ok_of_wrongKind

theorem takesOnly_uint8 : TakesOnly uint8 fun piece n => piece = decimal n.toNat := by
  intro text rest n h
  obtain ⟨found, _, hnatural, hrest⟩ := ok_of_bind h
  obtain ⟨blanks, piece, hblanks, rfl, rfl, hbound⟩ := takesOnly_natural _ hnatural
  cases hrest
  have hvalue : found.toUInt8.toNat = found := UInt8.toNat_ofNat_of_lt' hbound
  exact ⟨blanks, _, hblanks, rfl, congrArg decimal hvalue.symm⟩

theorem takesOnly_uint32 : TakesOnly uint32 fun piece n => piece = decimal n.toNat := by
  intro text rest n h
  obtain ⟨found, _, hnatural, hrest⟩ := ok_of_bind h
  obtain ⟨blanks, piece, hblanks, rfl, rfl, hbound⟩ := takesOnly_natural _ hnatural
  cases hrest
  have hvalue : found.toUInt32.toNat = found := UInt32.toNat_ofNat_of_lt' hbound
  exact ⟨blanks, _, hblanks, rfl, congrArg decimal hvalue.symm⟩

theorem takesOnly_null : TakesOnly null fun piece _ => piece = ['n', 'u', 'l', 'l'] := by
  intro text rest _ h
  obtain ⟨char, _, hpeek, hrest⟩ := ok_of_bind h
  obtain ⟨blanks, tail, hblanks, rfl, rfl⟩ := eq_of_peek hpeek
  split at hrest
  · exact ⟨blanks, _, hblanks, by rw [eq_of_word hrest], rfl⟩
  · exact absurd hrest not_ok_of_wrongKind

theorem takesOnly_string : TakesOnly string fun piece name =>
    ∃ raw, piece = '"' :: (raw ++ ['"']) ∧ Spells raw name.toList := by
  intro text rest name h
  obtain ⟨char, _, hpeek, hrest⟩ := ok_of_bind h
  obtain ⟨blanks, tail, hblanks, rfl, rfl⟩ := eq_of_peek hpeek
  split at hrest
  · next hquote =>
    obtain ⟨raw, rfl, hraw⟩ := spells_of_stringRest hrest
    exact ⟨blanks, _, hblanks, by simp [hquote], raw, rfl, hraw⟩
  · exact absurd hrest not_ok_of_wrongKind

/-- A value is there or `null` is. -/
inductive IsOptional (P : List Char → α → Prop) : List Char → Option α → Prop where
  | none : IsOptional P ['n', 'u', 'l', 'l'] none
  | some {piece : List Char} {a : α} : P piece a → IsOptional P piece (some a)

theorem TakesOnly.optional {reader : Reader α} {P : List Char → α → Prop}
    (H : TakesOnly reader P) : TakesOnly (optional reader) (IsOptional P) := by
  intro text rest found h
  obtain ⟨char, _, hpeek, hrest⟩ := ok_of_bind h
  obtain ⟨blanks, tail, hblanks, rfl, rfl⟩ := eq_of_peek hpeek
  split at hrest
  · obtain ⟨_, _, hword, hend⟩ := ok_of_bind hrest
    cases hend
    exact ⟨blanks, _, hblanks, by rw [eq_of_word hword], .none⟩
  · obtain ⟨a, _, htake, hend⟩ := ok_of_bind hrest
    obtain ⟨more, piece, hmore, htext, hpiece⟩ := H htake
    cases hend
    exact ⟨blanks ++ more, piece, hblanks.append hmore, by rw [htext, List.append_assoc],
      .some hpiece⟩

/-! ## Between brackets -/

section
variable {item : σ → Reader σ} {P : σ → List Char → σ → Prop} {s s' : σ} {close : Char}
  (H : ∀ s, TakesOnly (item s) (P s))
include H

theorem gathers_of_items {bound : List Char} (h : items close item bound s text = .ok (s', rest)) :
    ∃ blanks piece pieces more, Blank blanks ∧ text = blanks ++ (piece ++ (more ++ rest)) ∧
      Further close pieces more ∧ Gathers P s (piece :: pieces) s' := by
  induction bound generalizing s text with
  | nil => cases h
  | cons _ bound ih =>
    obtain ⟨s'', _, hitem, hmore⟩ := ok_of_bind h
    obtain ⟨char, _, hnext, hend⟩ := ok_of_bind hmore
    obtain ⟨blanks, piece, hblanks, rfl, hpiece⟩ := H s hitem
    obtain ⟨before, hbefore, rfl⟩ := eq_of_next hnext
    split at hend
    · next hcomma =>
      obtain ⟨after, second, pieces, more, hafter, rfl, hfurther, hgathers⟩ := ih hend
      refine ⟨blanks, piece, second :: pieces, _, hblanks, ?_,
        .cons hbefore hafter hfurther, .cons hpiece hgathers⟩
      simp only [hcomma, List.append_assoc, List.cons_append]
    · split at hend
      · next hclose =>
        cases hend
        refine ⟨blanks, piece, [], _, hblanks, ?_, .nil hbefore, .cons hpiece .nil⟩
        simp only [hclose, List.append_assoc, List.singleton_append]
      · cases hend

/-- What stands between brackets are pieces with commas between them. -/
theorem gathers_of_bracketed (h : bracketed close item s text = .ok (s', rest)) :
    ∃ pieces inside, text = inside ++ rest ∧ Inside close pieces inside ∧
      Gathers P s pieces s' := by
  obtain ⟨char, _, hpeek, hrest⟩ := ok_of_bind h
  obtain ⟨blanks, tail, hblanks, rfl, rfl⟩ := eq_of_peek hpeek
  split at hrest
  · next hclose =>
    cases hrest
    exact ⟨[], _, by simp [hclose], .nil hblanks, .nil⟩
  · rw [bind_get] at hrest
    obtain ⟨more, piece, pieces, inside, hmore, htext, hfurther, hgathers⟩ :=
      gathers_of_items H hrest
    refine ⟨piece :: pieces, _, ?_, .cons (hblanks.append hmore) hfurther, hgathers⟩
    simp only [htext, List.append_assoc]

end

/-! ## Values that are skipped -/

/-- A piece that is the text of some member. -/
def IsMember (P : MemberText → Prop) (piece : List Char) : Prop :=
  ∃ entry : MemberText, piece = entry.written ∧ entry.Proper ∧ P entry

theorem Gathers.forall {P : List Char → Prop} {pieces : List (List Char)} {s s' : σ}
    (H : Gathers (fun _ piece _ => P piece) s pieces s') : ∀ piece ∈ pieces, P piece := by
  intro piece hm
  obtain ⟨_, _, hpiece⟩ := H.exists_of_mem piece hm
  exact hpiece

/-- Pieces that are members are the texts of a list of members. -/
theorem exists_members {P : MemberText → Prop} {pieces : List (List Char)}
    (h : ∀ piece ∈ pieces, IsMember P piece) :
    ∃ entries : List MemberText, pieces = entries.map MemberText.written ∧
      (∀ entry ∈ entries, entry.Proper) ∧ ∀ entry ∈ entries, P entry := by
  induction pieces with
  | nil => exact ⟨[], rfl, nofun, nofun⟩
  | cons piece pieces ih =>
    obtain ⟨entry, rfl, hproper, hentry⟩ := h piece List.mem_cons_self
    obtain ⟨entries, rfl, hall, hentries⟩ :=
      ih fun other hm => h other (List.mem_cons_of_mem _ hm)
    refine ⟨entry :: entries, rfl, ?_, ?_⟩
    · exact List.forall_mem_cons.mpr ⟨hproper, hall⟩
    · exact List.forall_mem_cons.mpr ⟨hentry, hentries⟩

theorem takesOnly_skipMember {value : Reader Unit} {P : List Char → Prop}
    (H : TakesOnly value fun piece _ => P piece) :
    TakesOnly (do token '"'; skipString; token ':'; value) fun piece _ =>
      IsMember (fun entry => IsString entry.name ∧ P entry.value) piece := by
  intro text rest _ h
  obtain ⟨_, _, hquote, hmore⟩ := ok_of_bind h
  obtain ⟨_, _, hskip, hmost⟩ := ok_of_bind hmore
  obtain ⟨_, _, hcolon, hvalue⟩ := ok_of_bind hmost
  obtain ⟨blanks, hblanks, rfl⟩ := eq_of_token hquote
  obtain ⟨raw, rfl, hraw⟩ := isString_of_skipString hskip
  obtain ⟨before, hbefore, rfl⟩ := eq_of_token hcolon
  obtain ⟨after, piece, hafter, rfl, hpiece⟩ := H hvalue
  refine ⟨blanks, _, hblanks, ?_, ⟨raw, before, after, piece⟩, rfl, ⟨hbefore, hafter⟩, hraw, hpiece⟩
  simp [MemberText.written]

theorem takesOnly_skipValue (bound : List Char) :
    TakesOnly (skipValue bound) fun piece _ => IsValue piece := by
  -- every bracket takes one off the bound, so what stands inside is a value already
  induction bound with
  | nil => exact nofun
  | cons _ bound ih =>
    intro text rest _ h
    obtain ⟨char, _, hpeek, hrest⟩ := ok_of_bind h
    obtain ⟨blanks, tail, hblanks, rfl, rfl⟩ := eq_of_peek hpeek
    split at hrest
    · obtain ⟨n, _, hnumeral, hend⟩ := ok_of_bind hrest
      obtain ⟨written, htext, hwritten, -⟩ := isNumeral_of_numeral hnumeral
      cases hend
      exact ⟨blanks, written, hblanks, by rw [htext], .numeral hwritten⟩
    · split at hrest
      · exact ⟨blanks, _, hblanks, by rw [eq_of_word hrest], .null⟩
      · exact ⟨blanks, _, hblanks, by rw [eq_of_word hrest], .true⟩
      · exact ⟨blanks, _, hblanks, by rw [eq_of_word hrest], .false⟩
      · obtain ⟨raw, rfl, hraw⟩ := isString_of_skipString hrest
        exact ⟨blanks, _, hblanks, by simp, .string hraw⟩
      · obtain ⟨pieces, inside, rfl, hinside, hgathers⟩ := gathers_of_bracketed (fun _ => ih) hrest
        exact ⟨blanks, _, hblanks, rfl, .list hgathers.forall hinside⟩
      · obtain ⟨pieces, inside, rfl, hinside, hgathers⟩ :=
          gathers_of_bracketed (fun _ => takesOnly_skipMember ih) hrest
        obtain ⟨entries, rfl, hproper, hentries⟩ := exists_members hgathers.forall
        exact ⟨blanks, _, hblanks, rfl, .object (fun entry hm => (hentries entry hm).1) hproper
          (fun entry hm => (hentries entry hm).2) hinside⟩
      · cases hrest

/-- Whatever is skipped is a value. -/
theorem takesOnly_skip : TakesOnly skip fun piece _ => IsValue piece := by
  intro text rest _ h
  rw [skip, bind_get] at h
  exact takesOnly_skipValue _ h

/-! ## Records and variants -/

theorem takesOnly_slot {name : String} {get : σ → Option β} {set : σ → β → σ} {reader : Reader β}
    {P : List Char → β → Prop} (H : TakesOnly reader P) (s : σ) :
    TakesOnly ((Field.slot name get set reader).read s) fun piece s' =>
      ∃ b, P piece b ∧ s' = set s b := by
  intro text rest s' h
  obtain ⟨b, _, hread, hend⟩ := ok_of_bind h
  obtain ⟨blanks, piece, hblanks, rfl, hpiece⟩ := H hread
  cases hend
  exact ⟨blanks, piece, hblanks, rfl, b, hpiece, rfl⟩

section
variable {record : Record σ α} {P : Field σ → σ → List Char → σ → Prop}
  (H : ∀ field ∈ record.fields, ∀ s, TakesOnly (field.read s) (P field s))
include H

theorem takesOnly_member (s : σ) :
    TakesOnly (member record.fields s) (EntryText P record.fields s) := by
  intro text rest s' h
  obtain ⟨_, _, hquote, hmore⟩ := ok_of_bind h
  obtain ⟨name, _, hname, hvalue⟩ := ok_of_bind hmore
  obtain ⟨blanks, hblanks, rfl⟩ := eq_of_token hquote
  obtain ⟨raw, rfl, hraw⟩ := spells_of_stringRest hname
  cases hfind : record.fields.find? (·.name = name) with
  | some field =>
    simp only [hfind] at hvalue
    split at hvalue
    · cases hvalue
    · next hgiven =>
      obtain ⟨_, _, hcolon, hread⟩ := ok_of_bind hvalue
      obtain ⟨before, hbefore, rfl⟩ := eq_of_token hcolon
      obtain ⟨after, piece, hafter, rfl, hpiece⟩ :=
        H field (List.mem_of_find?_eq_some hfind) s hread
      let entry : MemberText := ⟨raw, before, after, piece⟩
      refine ⟨blanks, entry.written, hblanks, ?_,
        .field hraw ⟨hbefore, hafter⟩ hfind (eq_false_of_ne_true hgiven) hpiece⟩
      simp [entry, MemberText.written]
  | none =>
    simp only [hfind] at hvalue
    obtain ⟨_, _, hcolon, hskipped⟩ := ok_of_bind hvalue
    obtain ⟨_, _, hskip, hend⟩ := ok_of_bind hskipped
    obtain ⟨before, hbefore, rfl⟩ := eq_of_token hcolon
    obtain ⟨after, piece, hafter, rfl, hpiece⟩ := takesOnly_skip hskip
    cases hend
    let entry : MemberText := ⟨raw, before, after, piece⟩
    refine ⟨blanks, entry.written, hblanks, ?_, .other hraw ⟨hbefore, hafter⟩ hfind hpiece⟩
    simp [entry, MemberText.written]

end

section
variable {P : Field σ → σ → List Char → σ → Prop} {fields : List (Field σ)} {s s' : σ}

theorem eq_of_positional_nil {first : Bool}
    (h : positional [] first s text = .ok (s', rest)) :
    ∃ blanks, text = blanks ++ ']' :: rest ∧ Blank blanks ∧ s' = s := by
  obtain ⟨_, _, htoken, hend⟩ := ok_of_bind h
  obtain ⟨blanks, hblanks, rfl⟩ := eq_of_token htoken
  cases hend
  exact ⟨blanks, rfl, hblanks, rfl⟩

/-- What comes after the first value of a list. -/
theorem further_of_positional (H : ∀ field ∈ fields, ∀ s, TakesOnly (field.read s) (P field s))
    (h : positional fields false s text = .ok (s', rest)) :
    ∃ pieces more, text = more ++ rest ∧ Further ']' pieces more ∧
      InOrder P fields s pieces s' := by
  induction fields generalizing s text with
  | nil =>
    obtain ⟨blanks, rfl, hblanks, rfl⟩ := eq_of_positional_nil h
    exact ⟨[], _, by simp, .nil hblanks, .nil⟩
  | cons field fields ih =>
    obtain ⟨char, _, hpeek, hmore⟩ := ok_of_bind h
    obtain ⟨blanks, tail, hblanks, rfl, rfl⟩ := eq_of_peek hpeek
    split at hmore
    · next hclose =>
      cases hmore
      exact ⟨[], _, by simp [hclose], .nil hblanks, .nil⟩
    · obtain ⟨_, _, hcomma, hvalue⟩ := ok_of_bind hmore
      obtain ⟨s'', _, hread, hpositional⟩ := ok_of_bind hvalue
      obtain ⟨before, hbefore, htext⟩ := eq_of_token hcomma
      obtain ⟨after, piece, hafter, rfl, hpiece⟩ := H field List.mem_cons_self s hread
      obtain ⟨pieces, more, rfl, hfurther, horder⟩ :=
        ih (fun other hm => H other (List.mem_cons_of_mem _ hm)) hpositional
      refine ⟨piece :: pieces, _, ?_, .cons (hblanks.append hbefore) hafter hfurther,
        .cons hpiece horder⟩
      simp [htext]

/-- What stands in a list of the first fields. -/
theorem inside_of_positional (H : ∀ field ∈ fields, ∀ s, TakesOnly (field.read s) (P field s))
    (h : positional fields true s text = .ok (s', rest)) :
    ∃ pieces inside, text = inside ++ rest ∧ Inside ']' pieces inside ∧
      InOrder P fields s pieces s' := by
  cases fields with
  | nil =>
    obtain ⟨blanks, rfl, hblanks, rfl⟩ := eq_of_positional_nil h
    exact ⟨[], _, by simp, .nil hblanks, .nil⟩
  | cons field fields =>
    obtain ⟨char, _, hpeek, hmore⟩ := ok_of_bind h
    obtain ⟨blanks, tail, hblanks, rfl, rfl⟩ := eq_of_peek hpeek
    split at hmore
    · next hclose =>
      cases hmore
      exact ⟨[], _, by simp [hclose], .nil hblanks, .nil⟩
    · obtain ⟨s'', _, hread, hpositional⟩ := ok_of_bind hmore
      obtain ⟨more, piece, hmore, htext, hpiece⟩ := H field List.mem_cons_self s hread
      obtain ⟨pieces, further, rfl, hfurther, horder⟩ :=
        further_of_positional (fun other hm => H other (List.mem_cons_of_mem _ hm)) hpositional
      refine ⟨piece :: pieces, _, ?_, .cons (hblanks.append hmore) hfurther, .cons hpiece horder⟩
      simp [htext]

end

/-- A record is accepted only as it is written. -/
theorem takesOnly_record {record : Record σ α} {P : Field σ → σ → List Char → σ → Prop}
    (H : ∀ field ∈ record.fields, ∀ s, TakesOnly (field.read s) (P field s)) :
    TakesOnly record.read (RecordText P record) := by
  intro text rest a h
  obtain ⟨char, _, hpeek, hmore⟩ := ok_of_bind h
  obtain ⟨blanks, tail, hblanks, rfl, rfl⟩ := eq_of_peek hpeek
  split at hmore
  · rw [bind_of_ok (advance_cons _ _)] at hmore
    obtain ⟨s, _, hread, hend⟩ := ok_of_bind hmore
    obtain ⟨pieces, inside, rfl, hinside, hgathers⟩ :=
      gathers_of_bracketed (takesOnly_member H) hread
    cases hfinish : record.finish s with
    | ok value =>
      simp only [hfinish] at hend
      cases hend
      exact ⟨blanks, _, hblanks, rfl, .object hgathers hinside hfinish⟩
    | error mismatch =>
      simp only [hfinish] at hend
      cases hend
  · rw [bind_of_ok (advance_cons _ _)] at hmore
    obtain ⟨s, _, hread, hend⟩ := ok_of_bind hmore
    obtain ⟨pieces, inside, rfl, hinside, horder⟩ := inside_of_positional H hread
    cases hfinish : record.finish s with
    | ok value =>
      simp only [hfinish] at hend
      cases hend
      exact ⟨blanks, _, hblanks, rfl, .list horder hinside hfinish⟩
    | error mismatch =>
      simp only [hfinish] at hend
      cases hend
  · exact absurd hmore not_ok_of_wrongKind

theorem eq_of_findVariant {variants : List (Variant α)} {found : Variant α} {name : String}
    (h : findVariant variants name text = .ok (found, rest)) :
    variants.find? (·.name = found.name) = some found ∧ name = found.name ∧ rest = text := by
  rw [findVariant] at h
  cases hfind : variants.find? (·.name = name) with
  | none =>
    simp only [hfind] at h
    cases h
  | some variant =>
    simp only [hfind] at h
    cases h
    have hsome := List.find?_some hfind
    have hname : found.name = name := of_decide_eq_true hsome
    exact ⟨hname ▸ hfind, hname.symm, rfl⟩

theorem takesOnly_variant {variants : List (Variant α)} {P : Variant α → List Char → α → Prop}
    (H : ∀ found ∈ variants, TakesOnly found.content.read (P found)) :
    TakesOnly (variant variants) (VariantText P variants) := by
  intro text rest a h
  obtain ⟨char, _, hpeek, hmore⟩ := ok_of_bind h
  obtain ⟨blanks, tail, hblanks, rfl, rfl⟩ := eq_of_peek hpeek
  split at hmore
  · obtain ⟨name, _, hstring, hfound⟩ := ok_of_bind hmore
    obtain ⟨found, _, hfind, hend⟩ := ok_of_bind hfound
    obtain ⟨more, piece, hblank, htext, raw, rfl, hraw⟩ := takesOnly_string hstring
    obtain ⟨hisfound, rfl, rfl⟩ := eq_of_findVariant hfind
    cases hcontent : found.content with
    | nothing value =>
      simp only [hcontent] at hend
      cases hend
      exact ⟨blanks ++ more, _, hblanks.append hblank, by rw [htext, List.append_assoc],
        .name hisfound hraw hcontent⟩
    | holds reader =>
      simp only [hcontent] at hend
      cases hend
  · rw [bind_of_ok (advance_cons _ _)] at hmore
    obtain ⟨_, _, hquote, hname⟩ := ok_of_bind hmore
    obtain ⟨name, _, hstring, hfound⟩ := ok_of_bind hname
    obtain ⟨found, _, hfind, hcontent⟩ := ok_of_bind hfound
    obtain ⟨_, _, hcolon, hvalue⟩ := ok_of_bind hcontent
    obtain ⟨value, _, hread, hclosing⟩ := ok_of_bind hvalue
    obtain ⟨_, _, hclose, hend⟩ := ok_of_bind hclosing
    obtain ⟨first, hfirst, rfl⟩ := eq_of_token hquote
    obtain ⟨raw, rfl, hraw⟩ := spells_of_stringRest hstring
    obtain ⟨hisfound, rfl, rfl⟩ := eq_of_findVariant hfind
    obtain ⟨before, hbefore, rfl⟩ := eq_of_token hcolon
    obtain ⟨after, piece, hafter, rfl, hpiece⟩ := H found (List.mem_of_find?_eq_some hisfound) hread
    obtain ⟨last, hlast, rfl⟩ := eq_of_token hclose
    cases hend
    let entry : MemberText := ⟨raw, before, after, piece⟩
    refine ⟨blanks, '{' :: (first ++ (entry.written ++ (last ++ ['}']))), hblanks, ?_,
      .member hisfound hraw ⟨hbefore, hafter⟩ hpiece hfirst hlast⟩
    simp [entry, MemberText.written]
  · cases hmore

theorem takesOnly_noContent {found : Variant α} {a : α} (h : found.content = .nothing a) :
    TakesOnly found.content.read (NoContent found) := by
  intro text rest a' hread
  rw [h] at hread
  obtain ⟨_, _, hnull, hend⟩ := ok_of_bind hread
  obtain ⟨blanks, piece, hblanks, rfl, hpiece⟩ := takesOnly_null hnull
  cases hend
  exact ⟨blanks, piece, hblanks, rfl, h, hpiece⟩

/-! ## Whole texts -/

/-- A whole text that is accepted is a value with blanks around it. -/
theorem TakesOnly.eq_of_read {reader : Reader α} {P : List Char → α → Prop} {a : α}
    (H : TakesOnly reader P) (h : read reader text = .ok a) :
    ∃ before piece after, Blank before ∧ Blank after ∧ text = before ++ (piece ++ after) ∧
      P piece a := by
  rw [read] at h
  cases hfound : reader text with
  | error fault =>
    rw [hfound] at h
    cases h
  | ok found =>
    rw [hfound] at h
    change (if found.2.all isBlank then _ else _) = _ at h
    split at h
    · next hblank =>
      cases h
      obtain ⟨before, piece, hbefore, htext, hpiece⟩ := H hfound
      exact ⟨before, piece, found.2, hbefore, List.all_eq_true.mp hblank, htext, hpiece⟩
    · cases h

end Keystroke.Json
