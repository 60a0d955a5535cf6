import Keystroke.Proofs.Json.Numeral
import Keystroke.Proofs.Keymap.Audit

/-!
# Labels of actions

A label is made of words, which are names of codes, numbers and the letters of layer actions, and of
separators, which are in no word. A text can be cut at its separators in one way only
(`Cut.text_injective`), so it is enough that no two actions are cut alike
(`BasicAction.cut_injective`, `Action.cut_injective`). The labels of all entries then tell the
keymap (`Keymap.labels_injective`).
-/

namespace Keystroke

/-- Letters and digits, perhaps none. -/
abbrev Word := { chars : List Char // ∀ char ∈ chars, char.isAlphanum = true }

/-- What stands between two words of a label. -/
inductive Separator where
  | plus
  | bar
  | atSign
  | opening
  | closing
  | slash
  | underscore
  deriving DecidableEq, Repr

namespace Separator

def char : Separator → Char
  | plus => '+'
  | bar => '|'
  | atSign => '@'
  | opening => '('
  | closing => ')'
  | slash => '/'
  | underscore => '_'

theorem isAlphanum_char (separator : Separator) : separator.char.isAlphanum = false := by
  cases separator <;> rfl

theorem char_injective : Function.Injective char := by
  intro separator other h
  cases separator <;> cases other <;> first | rfl | cases h

end Separator

/-- A text cut at its separators: the word before the first one, and each separator with the word
after it. -/
@[ext]
structure Cut where
  first : Word
  more : List (Separator × Word)

namespace Cut

/-- Separators, each with the word after it. -/
def tail (more : List (Separator × Word)) : List Char :=
  more.flatMap fun piece => piece.1.char :: piece.2.val

def text (cut : Cut) : List Char := cut.first.val ++ tail cut.more

theorem tail_cons (piece : Separator × Word) (more : List (Separator × Word)) :
    tail (piece :: more) = piece.1.char :: text ⟨piece.2, more⟩ := rfl

theorem text_append (first : Word) (more rest : List (Separator × Word)) :
    text ⟨first, more ++ rest⟩ = text ⟨first, more⟩ ++ tail rest := by
  simp only [text, tail, List.flatMap_append, List.append_assoc]

/-- The first word goes on up to a character that is in no word. -/
theorem takeWhile_text (cut : Cut) : cut.text.takeWhile Char.isAlphanum = cut.first.val := by
  obtain ⟨first, more⟩ := cut
  rw [text, List.takeWhile_append_of_pos first.property]
  cases more with
  | nil => exact List.append_nil _
  | cons piece more =>
    rw [tail_cons, List.takeWhile_cons, piece.1.isAlphanum_char]
    exact List.append_nil _

theorem parts_eq_of_text_eq {cut other : Cut} (h : cut.text = other.text) :
    cut.first = other.first ∧ tail cut.more = tail other.more := by
  have hfirst : cut.first.val = other.first.val := by
    rw [← takeWhile_text, h, takeWhile_text]
  refine ⟨Subtype.ext hfirst, ?_⟩
  rw [text, text, hfirst] at h
  exact List.append_cancel_left h

/-- A text is cut in one way only. -/
theorem text_injective : Function.Injective text := by
  rintro ⟨first, more⟩ ⟨first', more'⟩ h
  induction more generalizing first first' more' with
  | nil =>
    obtain ⟨rfl, htail⟩ := parts_eq_of_text_eq h
    cases more' with
    | nil => rfl
    | cons => cases htail
  | cons piece more ih =>
    obtain ⟨rfl, htail⟩ := parts_eq_of_text_eq h
    cases more' with
    | nil => cases htail
    | cons piece' more' =>
      obtain ⟨separator, word⟩ := piece
      obtain ⟨separator', word'⟩ := piece'
      obtain ⟨hchar, htext⟩ := List.cons.inj htail
      obtain rfl := Separator.char_injective hchar
      cases ih _ _ _ htext
      rfl

end Cut

/-! ## Words -/

def Word.of (chars : List Char) (h : chars.all Char.isAlphanum = true) : Word :=
  ⟨chars, List.all_eq_true.mp h⟩

theorem all_isAlphanum_decimal (n : Nat) : (Json.decimal n).all Char.isAlphanum = true := by
  rw [List.all_eq_true]
  intro char h
  rw [Char.isAlphanum, Json.isDigit_of_mem_decimal h, Bool.or_true]

/-- The digits of a number. -/
def Word.ofNat (n : Nat) : Word := .of (Json.decimal n) (all_isAlphanum_decimal n)

theorem Word.ofNat_injective : Function.Injective ofNat := by
  intro n m h
  have hdigits : Json.decimal n = Json.decimal m := congrArg Subtype.val h
  rw [← Json.digitsValue_decimal n, hdigits, Json.digitsValue_decimal]

theorem KeyCode.all_isAlphanum_name (code : KeyCode) :
    code.name.toList.all Char.isAlphanum = true := by
  cases code <;> decide +kernel

/-- The name of a code. -/
def KeyCode.word (code : KeyCode) : Word := .of code.name.toList code.all_isAlphanum_name

theorem KeyCode.word_injective : Function.Injective KeyCode.word := fun _ _ h =>
  name_injective (String.toList_injective (congrArg Subtype.val h))

/-! ## Chords -/

namespace Chord

/-- The label of a chord, cut. -/
def cut : Chord → Cut
  | pair first second => ⟨first.word, [(.plus, second.word)]⟩
  | triple first second third => ⟨first.word, [(.plus, second.word), (.plus, third.word)]⟩

theorem text_cut (chord : Chord) : chord.cut.text = chord.label.toList := by
  cases chord with
  | pair first second =>
    have hlabel : (pair first second).label = first.name ++ "+" ++ second.name := rfl
    rw [hlabel]
    simp [cut, Cut.text, Cut.tail, Separator.char, KeyCode.word, Word.of]
  | triple first second third =>
    have hlabel : (triple first second third).label =
      first.name ++ "+" ++ second.name ++ "+" ++ third.name := rfl
    rw [hlabel]
    simp [cut, Cut.text, Cut.tail, Separator.char, KeyCode.word, Word.of]

theorem cut_injective : Function.Injective cut := by
  intro chord other h
  obtain ⟨hfirst, hmore⟩ := Cut.ext_iff.mp h
  cases chord with
  | pair first second =>
    cases other with
    | pair first' second' =>
      have hsecond : second.word = second'.word := (Prod.mk.inj (List.cons.inj hmore).1).2
      rw [KeyCode.word_injective hfirst, KeyCode.word_injective hsecond]
    | triple => cases (List.cons.inj hmore).2
  | triple first second third =>
    cases other with
    | pair => cases (List.cons.inj hmore).2
    | triple first' second' third' =>
      obtain ⟨hhead, hrest⟩ := List.cons.inj hmore
      have hsecond : second.word = second'.word := (Prod.mk.inj hhead).2
      have hthird : third.word = third'.word := (Prod.mk.inj (List.cons.inj hrest).1).2
      rw [KeyCode.word_injective hfirst, KeyCode.word_injective hsecond,
        KeyCode.word_injective hthird]

/-- All separators in a chord are plus signs. -/
theorem separator_of_mem_cut {chord : Chord} {piece : Separator × Word}
    (h : piece ∈ chord.cut.more) : piece.1 = .plus := by
  cases chord <;> simp only [cut, List.mem_cons, List.not_mem_nil, or_false] at h
  · rw [h]
  · rcases h with rfl | rfl <;> rfl

end Chord

/-! ## Basic actions -/

namespace BasicAction

/-- Letters, and a number in brackets. -/
def callCut (letters : Word) (n : Nat) : Cut :=
  ⟨letters, [(.opening, .ofNat n), (.closing, .of [] rfl)]⟩

/-- The label of an action, cut. -/
def cut : BasicAction → Cut
  | noOp => ⟨.of [] rfl, [(.underscore, .of [] rfl)]⟩
  | emit code => ⟨code.word, []⟩
  | chord keys => keys.cut
  | combined other normal joint =>
    ⟨normal.word, [(.bar, joint.word), (.atSign, .ofNat other.val)]⟩
  | layerHold layer => callCut (.of ['M', 'O'] rfl) layer.val
  | layerToggle layer => callCut (.of ['T', 'G'] rfl) layer.val
  | configSwitch config => callCut (.of ['C', 'F', 'G'] rfl) config.val

theorem text_callCut (letters : Word) (n : Nat) :
    (callCut letters n).text = letters.val ++ '(' :: (Json.decimal n ++ [')']) := rfl

theorem text_cut (action : BasicAction) : action.cut.text = action.label.toList := by
  cases action with
  | noOp => rfl
  | emit code => exact List.append_nil _
  | chord keys => exact keys.text_cut
  | combined other normal joint =>
    simp [cut, label, Cut.text, Cut.tail, Separator.char, KeyCode.word, Word.of, Word.ofNat]
  | layerHold layer => simp [cut, label, text_callCut, Word.of]
  | layerToggle layer => simp [cut, label, text_callCut, Word.of]
  | configSwitch config => simp [cut, label, text_callCut, Word.of]

theorem slash_notMem_cut (action : BasicAction) (word : Word) :
    (Separator.slash, word) ∉ action.cut.more := by
  cases action with
  | chord keys =>
    intro h
    cases Chord.separator_of_mem_cut h
  | _ => simp [cut, callCut]

/-- The kinds of actions, as far as they can be told by their first separators. -/
def mark : BasicAction → Option Separator
  | noOp => some .underscore
  | emit _ => none
  | chord _ => some .plus
  | combined .. => some .bar
  | layerHold _ | layerToggle _ | configSwitch _ => some .opening

theorem mark_eq (action : BasicAction) : action.mark = action.cut.more.head?.map Prod.fst := by
  cases action with
  | chord keys => cases keys <;> rfl
  | _ => rfl

theorem callCut_inj {letters letters' : Word} {n m : Nat}
    (h : callCut letters n = callCut letters' m) : letters = letters' ∧ n = m := by
  obtain ⟨hletters, hmore⟩ := Cut.mk.inj h
  exact ⟨hletters, Word.ofNat_injective (Prod.mk.inj (List.cons.inj hmore).1).2⟩

/-- Where the first separators agree, the kinds do, but for the letters before a bracket. -/
theorem cut_injective : Function.Injective cut := by
  intro action other h
  have hmark : action.mark = other.mark := by
    rw [mark_eq, mark_eq, h]
  cases action <;> cases other <;> cases hmark
  case noOp.noOp => rfl
  case emit.emit code code' =>
    rw [KeyCode.word_injective (Cut.mk.inj h).1]
  case chord.chord keys keys' =>
    rw [Chord.cut_injective h]
  case combined.combined other normal joint other' normal' joint' =>
    obtain ⟨hnormal, hmore⟩ := Cut.mk.inj h
    obtain ⟨hhead, hrest⟩ := List.cons.inj hmore
    have hjoint : joint.word = joint'.word := (Prod.mk.inj hhead).2
    have hother := Word.ofNat_injective (Prod.mk.inj (List.cons.inj hrest).1).2
    rw [KeyCode.word_injective hnormal, KeyCode.word_injective hjoint, Fin.ext hother]
  case layerHold.layerHold layer layer' => rw [Fin.ext (callCut_inj h).2]
  case layerToggle.layerToggle layer layer' => rw [Fin.ext (callCut_inj h).2]
  case configSwitch.configSwitch config config' => rw [Fin.ext (callCut_inj h).2]
  all_goals
    have hletters := congrArg Subtype.val (callCut_inj h).1
    simp [Word.of] at hletters

theorem label_injective : Function.Injective label := by
  intro action other h
  apply cut_injective
  apply Cut.text_injective
  rw [text_cut, text_cut, h]

end BasicAction

/-! ## Entries -/

namespace Action

/-- The label of an entry, cut. -/
def cut : Action → Cut
  | basic action => action.cut
  | tapHold tap hold =>
    ⟨tap.cut.first, tap.cut.more ++ (.slash, hold.cut.first) :: hold.cut.more⟩

theorem text_cut (action : Action) : action.cut.text = action.label.toList := by
  cases action with
  | basic action => exact action.text_cut
  | tapHold tap hold =>
    rw [cut, Cut.text_append, Cut.tail_cons, tap.text_cut, hold.text_cut]
    simp [label, Separator.char]

/-- A slash divides a tap-hold pair, and no basic action has one. -/
theorem cut_tapHold_ne (tap hold action : BasicAction) : (tapHold tap hold).cut ≠ action.cut := by
  intro h
  have hslash : (Separator.slash, hold.cut.first) ∈ action.cut.more := by
    rw [← h]
    exact List.mem_append_right _ List.mem_cons_self
  exact action.slash_notMem_cut _ hslash

theorem cut_injective : Function.Injective cut := by
  intro action other h
  cases action with
  | basic action =>
    cases other with
    | basic other => rw [BasicAction.cut_injective h]
    | tapHold tap hold => exact absurd h.symm (cut_tapHold_ne tap hold action)
  | tapHold tap hold =>
    cases other with
    | basic other => exact absurd h (cut_tapHold_ne tap hold other)
    | tapHold tap' hold' =>
      obtain ⟨hfirst, hmore⟩ := Cut.mk.inj h
      -- the first slash is the one between the halves
      obtain ⟨hrest, hslash, hrest'⟩ := (List.append_cons_inj_of_notMem
        (tap.slash_notMem_cut _) (hold.slash_notMem_cut _)).mp hmore
      have htap : tap = tap' := BasicAction.cut_injective (Cut.ext hfirst hrest)
      have hhold : hold = hold' :=
        BasicAction.cut_injective (Cut.ext (Prod.mk.inj hslash).2 hrest')
      rw [htap, hhold]

theorem label_injective : Function.Injective label := by
  intro action other h
  apply cut_injective
  apply Cut.text_injective
  rw [text_cut, text_cut, h]

end Action

/-! ## Keymaps -/

namespace Keymap

/-- The labels of all entries, in index order. -/
def labels (keymap : Keymap) : List String :=
  (Config.all.flatMap places).map fun place => (keymap.entryAt place).label

theorem labels_injective : Function.Injective labels := by
  intro keymap other h
  have hlabels := List.map_inj_left.mp h
  apply ext_lookup
  intro config layer key
  have hplace : ⟨config, layer, key⟩ ∈ Config.all.flatMap places :=
    List.mem_flatMap.mpr ⟨config, config.mem_all, mem_places.mpr rfl⟩
  exact Action.label_injective (hlabels ⟨config, layer, key⟩ hplace)

end Keymap

/-- Labels are unambiguous. Basic actions have the same label just if they are the same, and so have
entries; and keymaps are the same just if the labels of all their entries are. -/
theorem labels_are_unambiguous :
    (∀ action other : BasicAction, action.label = other.label ↔ action = other) ∧
    (∀ action other : Action, action.label = other.label ↔ action = other) ∧
    ∀ keymap other : Keymap, keymap.labels = other.labels ↔ keymap = other :=
  ⟨fun _ _ => BasicAction.label_injective.eq_iff, fun _ _ => Action.label_injective.eq_iff,
    fun _ _ => Keymap.labels_injective.eq_iff⟩

end Keystroke
