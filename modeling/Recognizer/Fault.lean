import Recognizer.Text.Symbol

/-!
# Faults

Everything that can be wrong with an input, as causes: a word or a
pattern with a symbol from outside the alphabet, a pattern that is no
regular expression, a definition that describes no automaton, a result
too large or too deep for the limits. Each cause carries what its
message needs, and `Fault.message` is the one place where the wording
stands.
-/

namespace Recognizer

/-- The number by which an automaton knows a state. -/
abbrev State := UInt32

/-- A set of states. -/
abbrev States := OrdSet State

/-! A set of states is a key of the map that numbers such sets, and these are
the two laws that a map asks of its keys. -/

instance : Std.TransOrd States :=
  inferInstance

instance : Std.LawfulEqOrd States :=
  inferInstance

/-- **What a pattern can get wrong.** -/
inductive SyntaxFault where
  /-- No factor where an alternative should have one: between two bars,
  at an end of the pattern or of a group. -/
  | missingFactor
  /-- A group that is never closed. -/
  | unclosedGroup
  /-- A closing parenthesis with no group to close. -/
  | unopenedGroup
  /-- A star with no factor right before it. -/
  | starWithoutFactor
  /-- A tree, or a sequence of open groups, deeper than the limit. -/
  | nestedTooDeep
  deriving DecidableEq

/-- The reason as a message gives it. -/
def SyntaxFault.reason : SyntaxFault → String
  | missingFactor => "empty alternative"
  | unclosedGroup => "unmatched '('"
  | unopenedGroup => "unmatched ')'"
  | starWithoutFactor => "'*' without preceding factor"
  | nestedTooDeep => "groups nested too deeply"

/-- A fault of a pattern, with the place where it was found: the number
of bytes before it when the pattern is encoded as UTF-8. -/
structure PatternFault where
  kind : SyntaxFault
  position : Nat
  deriving DecidableEq

def PatternFault.message (f : PatternFault) : String :=
  "Malformed regex: " ++ f.kind.reason ++ " at position " ++ f.position.repr

/-- **What can be wrong with an input.** -/
inductive Fault (α : Type) where
  /-- A symbol from outside the alphabet. -/
  | outsideSymbol (symbol : α)
  /-- A pattern that is no regular expression. -/
  | malformedPattern (fault : PatternFault)
  /-- A state that is spoken of and does not exist. -/
  | missingState (state : State)
  /-- A silent transition where determinism forbids it. -/
  | silentTransition (state : State)
  /-- A second destination for one state and symbol where determinism
  allows one. -/
  | ambiguousTransition (state : State) (symbol : α)
  /-- An automaton with more states than the limit. -/
  | tooManyStates (limit states : Nat)
  /-- A tree deeper than the limit. -/
  | tooDeep (limit : Nat)
  deriving DecidableEq

/-- The message that tells a reader what is wrong. -/
def Fault.message {α : Type} [SymbolText α] : Fault α → String
  | outsideSymbol a => "Symbol " ++ SymbolText.quoted a ++ " not in alphabet"
  | malformedPattern f => f.message
  | missingState q => "Inexistent State ID \"" ++ q.toNat.repr ++ "\""
  | silentTransition q =>
    "Epsilon transition from DFA state \"" ++ q.toNat.repr ++ "\""
  | ambiguousTransition q a =>
    "Multiple transitions from state \"" ++ q.toNat.repr ++ "\" on "
      ++ SymbolText.quoted a
  | tooManyStates limit states =>
    "Automaton with " ++ states.repr ++ " states exceeds size limit of "
      ++ limit.repr
  | tooDeep limit =>
    "Regex nested deeper than the limit of " ++ limit.repr

/-- **No room for a renumbering**: this many states do not fit into the
ids from the offset on. -/
structure NoRoom where
  states : Nat
  offset : State
  deriving DecidableEq

def NoRoom.message (f : NoRoom) : String :=
  f.states.repr ++ " states do not fit above offset " ++ f.offset.toNat.repr

end Recognizer
