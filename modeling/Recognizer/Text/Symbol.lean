import Recognizer.Label
import Recognizer.Text.Quoted

/-!
# Symbols as text

A symbol has two texts: its plain one, which a pattern and a listing
use, and its quoted one, which messages use. `SymbolText` gives both
for the three kinds of symbols documents know – characters, integers
and texts.
-/

namespace Recognizer

/-- **A symbol's texts.** -/
class SymbolText (α : Type) where
  /-- The text a pattern or a listing shows. -/
  plain : α → List Char
  /-- The text a message quotes. -/
  quoted : α → String

instance : SymbolText Char where
  plain c := [c]
  quoted := Quoted.char

instance : SymbolText Int64 where
  plain n := n.toInt.repr.toList
  quoted n := n.toInt.repr

instance : SymbolText String where
  plain := String.toList
  quoted := Quoted.text

/-- A label's text: its symbol's, or a letter for the silent one. -/
def Label.plain {α : Type} [SymbolText α] : Label α → List Char
  | symbol a => SymbolText.plain a
  | silent => ['ε']

end Recognizer
