import Recognizer.Regex.Basic

/-!
# Trees as patterns

A tree is printed the way a pattern is written: a sequence without a
sign between its items, a choice with bars, a star behind its operand,
a group in parentheses. Where the pattern would otherwise read
differently, parentheses are added that the tree does not hold: around
a choice among the items of a sequence, and around the operand of a
star that is neither a literal nor a group.

The other text of a tree, `debug`, is the one the log shows: every node
by name.
-/

namespace Recognizer.Regex

variable {α : Type}

/-- A text between parentheses. -/
def parenthesize (cs : List Char) : List Char :=
  '(' :: (cs ++ [')'])

/-- Whether the tree is a choice. -/
def isChoice : Regex α → Bool
  | choice _ => true
  | _ => false

/-- Whether a star may follow the tree's text without parentheses. -/
def isAtom : Regex α → Bool
  | literal _ => true
  | group _ => true
  | _ => false

mutual

/-- **The pattern of a tree.** -/
def render [SymbolText α] : Regex α → List Char
  | literal a => SymbolText.plain a
  | sequence ts => renderFactors ts
  | choice [] => []
  | choice (t :: ts) => t.render ++ renderAlternatives ts
  | star t =>
    (if t.isAtom then t.render else parenthesize t.render) ++ ['*']
  | group t => parenthesize t.render

/-- The items of a sequence, choices in parentheses. -/
def renderFactors [SymbolText α] : List (Regex α) → List Char
  | [] => []
  | t :: ts =>
    (if t.isChoice then parenthesize t.render else t.render)
      ++ renderFactors ts

/-- The items of a choice, each with a bar before it. -/
def renderAlternatives [SymbolText α] : List (Regex α) → List Char
  | [] => []
  | t :: ts => '|' :: (t.render ++ renderAlternatives ts)

end

/-- The pattern of a tree as a text. -/
def toPattern [SymbolText α] (t : Regex α) : String :=
  String.ofList t.render

mutual

/-- **The tree with every node named**, as the log shows it. -/
def debug [SymbolText α] : Regex α → String
  | literal a => "Literal(" ++ SymbolText.quoted a ++ ")"
  | sequence ts => "Concat([" ++ ", ".intercalate (debugItems ts) ++ "])"
  | choice ts =>
    "Alternation([" ++ ", ".intercalate (debugItems ts) ++ "])"
  | star t => "Star(" ++ t.debug ++ ")"
  | group t => "Group(" ++ t.debug ++ ")"

def debugItems [SymbolText α] : List (Regex α) → List String
  | [] => []
  | t :: ts => t.debug :: debugItems ts

end

end Recognizer.Regex
