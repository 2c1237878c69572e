import Recognizer.NFA.Definition
import Recognizer.NFA.Operators
import Recognizer.Regex.Reader

/-!
# Automata of regular expressions

The automaton of a tree is built from the leaves up: a literal gives the
automaton of its symbol, a sequence and a choice combine their items
from left to right, a star repeats, a group is what it holds. An empty
sequence accepts the empty word only, and an empty choice nothing.

Two `Limits` keep a construction small. The depth of a node is looked at
on the way down, before anything is built of it. The number of states is
looked at on the way up, after every automaton that is built, so that a
tree whose automaton would be too large is given up early.
-/

namespace Recognizer

/-- **How far a construction may go.** -/
structure Limits where
  /-- The greatest number of states an automaton may have, if there is
  a limit. -/
  states : Option Nat := none
  /-- The greatest height of a pattern's tree, the greatest number of
  its open groups, and the greatest depth of a node. -/
  nesting : Nat := 250

namespace Limits

variable {α : Type} [LinearOrd α]

/-- Lets an automaton pass that is not too large. -/
def allow (L : Limits) (A : NFA α) : Except (Fault α) (NFA α) :=
  match L.states with
  | none => .ok A
  | some limit =>
    if limit < A.size then .error (.tooManyStates limit A.size) else .ok A

/-- Lets a depth pass that is not too great. -/
def descend (L : Limits) (depth : Nat) : Except (Fault α) Unit :=
  if L.nesting < depth then .error (.tooDeep L.nesting) else .ok ()

end Limits

namespace Regex

variable {α : Type} [LinearOrd α]

mutual

/-- **The automaton of a node** at a depth. -/
def nodeNFA (S : Alphabet α) (L : Limits) :
    Regex α → Nat → Except (Fault α) (NFA α)
  | literal a, depth => do
    L.descend depth
    L.allow (← NFA.single S a)
  | sequence ts, depth => do
    L.descend depth
    L.allow (← itemsNFA S L NFA.sequence true ts (depth + 1))
  | choice ts, depth => do
    L.descend depth
    L.allow (← itemsNFA S L NFA.choice false ts (depth + 1))
  | star t, depth => do
    L.descend depth
    L.allow (← t.nodeNFA S L (depth + 1)).star
  | group t, depth => do
    L.descend depth
    L.allow (← t.nodeNFA S L (depth + 1))

/-- The automata of the items, combined from left to right. Where there
are no items it is an automaton of one state. -/
def itemsNFA (S : Alphabet α) (L : Limits) (combine : NFA α → NFA α → NFA α)
    (acceptsEmpty : Bool) : List (Regex α) → Nat → Except (Fault α) (NFA α)
  | [], _ => .ok (NFA.point S 0 acceptsEmpty)
  | t :: ts, depth => do
    combineNFA S L combine ts depth (← t.nodeNFA S L depth)

/-- Combines an automaton with those of further items. -/
def combineNFA (S : Alphabet α) (L : Limits)
    (combine : NFA α → NFA α → NFA α) :
    List (Regex α) → Nat → NFA α → Except (Fault α) (NFA α)
  | [], _, A => .ok A
  | t :: ts, depth, A => do
    let B ← t.nodeNFA S L depth
    combineNFA S L combine ts depth (← L.allow (combine A B))

end

/-- **The automaton of a tree** over an alphabet. A literal from outside
the alphabet is found before anything is built. -/
def toNFA (S : Alphabet α) (L : Limits) (t : Regex α) :
    Except (Fault α) (NFA α) :=
  match S.firstOutside t.literals with
  | some a => .error (.outsideSymbol a)
  | none => t.nodeNFA S L 0

end Regex

/-- **The automaton of a pattern** over an alphabet. -/
def NFA.ofPattern (S : Alphabet Char) (L : Limits) (pattern : String) :
    Except (Fault Char) (NFA Char) :=
  match Regex.ofPattern L.nesting pattern with
  | .error f => .error (.malformedPattern f)
  | .ok t => t.toNFA S L

end Recognizer
