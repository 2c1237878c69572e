import Recognizer.NFA.Determinization
import Recognizer.Worklist

/-!
# The closure and the sets of states item by item

`NFA.silentClosure` and `NFA.determinize` search by layers, and the second one
numbers the sets when all of them are known. Here both searches look at one
item at a time.

The closure has a stack of states, on which a silent transition puts its target
unless that was found before (`NFA.closingTurn`).

The other search has a queue of sets of states, and builds the deterministic
automaton while it runs (`NFA.subsetTurn`). A set gets its number when it is
found: the number of sets that have one. It is looked up when a step leads to
the set again, and when the set is popped. Nothing says that a set that is
popped has a number, and so the search may end at a set that has none
(`NFA.NoNumber`). Nor does the automaton refuse anything: a state that is added
takes the place of one with its id and of the transitions that leave it, and a
transition takes the place of one with its source and symbol. So transitions
could be lost without a word. Those that were ever added are kept beside the
automaton, as are the sets that were popped (`NFA.SubsetSearch.connected`,
`NFA.SubsetSearch.popped`). No turn reads what is kept there.
-/

namespace Recognizer

/-! ## Tables that replace -/

namespace DFA

variable {α : Type} [LinearOrd α]

/-- **A new state without transitions**, in place of any state with its id. -/
def addState (D : DFA α) (q : State) (accepts : Bool) : DFA α :=
  { D with
    states := D.states.insert q
    final := if accepts then D.final.insert q else D.final.erase q
    table := D.table.filter fun k _ => k.1 ≠ q }

/-- A transition between two states, in place of any with its source and
symbol. -/
def connect (D : DFA α) (q : State) (a : α) (r : State) : DFA α :=
  if q ∈ D.states then { D with table := D.table.insert (q, a) r } else D

/-- The automaton with a single state and no transitions. -/
def point (S : Alphabet α) (q : State) (accepts : Bool) : DFA α :=
  addState ⟨S, q, ∅, ∅, ∅⟩ q accepts

end DFA

namespace NFA

variable {α : Type} [LinearOrd α]

/-! ## The closure -/

/-- **One turn of the closure**: the state on top of the stack is popped, and
its silent targets are put on the stack. -/
def closingTurn (A : NFA α) : Search State → Option (Search State) :=
  Search.turn .stack A.silentTargets

/-! ## The sets of states -/

/-- A set of states that was looked up and has no number. -/
structure NoNumber where
  subset : States
  deriving DecidableEq

/-- **The search for sets of states under way.** -/
structure SubsetSearch (α : Type) [LinearOrd α] where
  /-- The sets found, with their numbers. -/
  ids : OrdMap States State
  queue : List States
  dfa : DFA α
  /-- What was popped, in order. -/
  popped : List States
  /-- The transitions added, in order. -/
  connected : List ((State × α) × State)
  deriving DecidableEq

namespace SubsetSearch

/-- The set a run starts from is found and has number zero. -/
def start (A : NFA α) : SubsetSearch α where
  ids := OrdMap.ofPairs [(A.startSet, 0)]
  queue := [A.startSet]
  dfa := .point A.alphabet 0 (A.isFinalSet A.startSet)
  popped := []
  connected := []

/-- **The number of a set**, and a state with this number if the set is new. -/
def idOf (A : NFA α) (s : SubsetSearch α) (S : States) :
    State × SubsetSearch α :=
  match s.ids[S]? with
  | some id => (id, s)
  | none =>
    let id := UInt32.ofNat s.ids.size
    (id, { s with
      ids := s.ids.insert S id
      queue := s.queue ++ [S]
      dfa := s.dfa.addState id (A.isFinalSet S) })

/-- Adds a transition. -/
def connect (s : SubsetSearch α) (q : State) (a : α) (r : State) :
    SubsetSearch α :=
  { s with
    dfa := s.dfa.connect q a r
    connected := s.connected ++ [((q, a), r)] }

/-- **Follows a symbol** from a set and its number to the next set, unless that
is empty. -/
def follow (A : NFA α) (S : States) (q : State) (s : SubsetSearch α) (a : α) :
    SubsetSearch α :=
  match A.nextSet? S a with
  | none => s
  | some T => (s.idOf A T).2.connect q a (s.idOf A T).1

end SubsetSearch

/-- **One turn of the search for sets of states**: the set that has waited
longest is popped, and all symbols of the alphabet are followed from it. The
search ends at a set that has no number. -/
def subsetTurn (A : NFA α) :
    Except NoNumber (SubsetSearch α) →
      Option (Except NoNumber (SubsetSearch α))
  | .error _ => none
  | .ok s =>
    match s.queue with
    | [] => none
    | S :: queue => some <|
      match s.ids[S]? with
      | none => .error ⟨S⟩
      | some q => .ok (A.alphabet.toList.foldl (SubsetSearch.follow A S q)
          { s with queue := queue, popped := s.popped ++ [S] })

end NFA

end Recognizer
