import Keystroke.Action
import Keystroke.Proofs.Buffer

/-!
# Chords in fixed room

A device keeps a chord in a `Buffer` of three slots, and a pair repeats its first code in the slot
that it leaves over. The slots in use are the codes (`Fixed.contents_ofChord`), fixed chords are the
same slot by slot just if the chords are (`Fixed.ofChord_inj`), and the lists that make one are
those that make a chord (`Fixed.ofCodes?_eq_map`).
-/

namespace Keystroke

namespace Chord

/-- A chord in fixed room. -/
abbrev Fixed := Buffer maxChordCodes KeyCode

namespace Fixed

def pair (first second : KeyCode) : Fixed := ⟨⟨#v[first, second, first]⟩, 2, by decide⟩

def triple (first second third : KeyCode) : Fixed := ⟨⟨#v[first, second, third]⟩, 3, by decide⟩

def ofChord : Chord → Fixed
  | .pair first second => pair first second
  | .triple first second third => triple first second third

/-- The fixed chord of a list of two or three codes. -/
def ofCodes? : List KeyCode → Option Fixed
  | [first, second] => some (pair first second)
  | [first, second, third] => some (triple first second third)
  | _ => none

theorem contents_ofChord (chord : Chord) : (ofChord chord).contents = chord.codes := by
  cases chord <;> rfl

theorem ofChord_inj {chord other : Chord} : ofChord chord = ofChord other ↔ chord = other := by
  refine ⟨fun h => ?_, fun h => h ▸ rfl⟩
  have hcodes : chord.codes = other.codes := by
    rw [← contents_ofChord, h, contents_ofChord]
  rw [← Option.some.injEq, ← ofCodes?_codes, hcodes, ofCodes?_codes]

theorem ofCodes?_eq_map (codes : List KeyCode) :
    ofCodes? codes = (Chord.ofCodes? codes).map ofChord := by
  match codes with
  | [] | [_] | [_, _] | [_, _, _] | _ :: _ :: _ :: _ :: _ => rfl

/-- A fixed chord that was made of some codes is that of a chord, and holds exactly these codes. -/
theorem contents_of_ofCodes? {codes : List KeyCode} {fixed : Fixed}
    (h : ofCodes? codes = some fixed) :
    fixed.contents = codes ∧ ∃ chord, ofChord chord = fixed := by
  rw [ofCodes?_eq_map] at h
  obtain ⟨chord, hchord, rfl⟩ := Option.map_eq_some_iff.mp h
  refine ⟨?_, chord, rfl⟩
  rw [contents_ofChord]
  match codes, hchord with
  | [_, _], rfl | [_, _, _], rfl => rfl

end Fixed

end Chord

end Keystroke
