import Recognizer.Order

/-!
# Alphabets

An alphabet is a set of symbols, and what it is for is to be checked
against: a word is acceptable input only if it has no symbol from
outside. `Alphabet.firstOutside` finds the symbol to complain about,
and `Alphabet.firstOutside_eq_none_iff` and
`Alphabet.firstOutside_eq_some_iff` say which one that is.
-/

namespace Recognizer

/-- The symbols an automaton or a construction knows. -/
abbrev Alphabet (α : Type) [LinearOrd α] := OrdSet α

namespace Alphabet

variable {α : Type} [LinearOrd α]

/-- The ten decimal digits. -/
def digits : Alphabet Char :=
  OrdSet.ofList ['0', '1', '2', '3', '4', '5', '6', '7', '8', '9']

/-- The characters of a text. -/
def ofString (s : String) : Alphabet Char :=
  OrdSet.ofList s.toList

/-- **The first symbol of a word from outside the alphabet.** -/
def firstOutside (S : Alphabet α) (w : List α) : Option α :=
  w.find? fun a => a ∉ S

theorem firstOutside_eq_none_iff {S : Alphabet α} {w : List α} :
    S.firstOutside w = none ↔ ∀ a ∈ w, a ∈ S := by
  simp [firstOutside]

/-- The symbol found is outside, and all symbols before it are inside. -/
theorem firstOutside_eq_some_iff {S : Alphabet α} {w : List α} {a : α} :
    S.firstOutside w = some a ↔
      a ∉ S ∧ ∃ u v, w = u ++ a :: v ∧ ∀ b ∈ u, b ∈ S := by
  simp [firstOutside, List.find?_eq_some_iff_append]

end Alphabet

end Recognizer
