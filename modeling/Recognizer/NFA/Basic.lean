import Recognizer.EdgeSet
import Recognizer.Alphabet

/-!
# Nondeterministic automata

An automaton has an alphabet, states of which one is the start and some
accept, and edges labelled by symbols or silent. It is plain data, and
two automata are equal when all five parts are.

What makes such data an automaton is `NFA.WellFormed`: the start, the
accepting states and both ends of every edge are states, and every
symbol on an edge is in the alphabet. The constructions of this library
take well-formed automata to well-formed ones.
-/

namespace Recognizer

/-- **A nondeterministic automaton with silent transitions.** -/
structure NFA (α : Type) [LinearOrd α] where
  alphabet : Alphabet α
  start : State
  states : States
  final : States
  edges : EdgeSet (Label α)
  deriving DecidableEq

namespace NFA

variable {α : Type} [LinearOrd α]

/-- **The parts fit together.** -/
structure WellFormed (A : NFA α) : Prop where
  start_mem : A.start ∈ A.states
  final_mem : ∀ q ∈ A.final, q ∈ A.states
  source_mem : ∀ e ∈ A.edges, e.source ∈ A.states
  target_mem : ∀ e ∈ A.edges, e.target ∈ A.states
  symbol_mem : ∀ e ∈ A.edges, ∀ a, e.label = .symbol a → a ∈ A.alphabet

/-- Two automata with the same parts are the same. -/
theorem ext_mem {M N : NFA α} (halphabet : M.alphabet = N.alphabet)
    (hstart : M.start = N.start) (hstates : ∀ q, q ∈ M.states ↔ q ∈ N.states)
    (hfinal : ∀ q, q ∈ M.final ↔ q ∈ N.final)
    (hedges : ∀ e, e ∈ M.edges ↔ e ∈ N.edges) : M = N := by
  obtain ⟨S, p, Q, F, E⟩ := M
  obtain ⟨T, q, R, G, H⟩ := N
  obtain rfl : S = T := halphabet
  obtain rfl : p = q := hstart
  obtain rfl : Q = R := Std.ExtTreeSet.ext_mem hstates
  obtain rfl : F = G := Std.ExtTreeSet.ext_mem hfinal
  obtain rfl : E = H := EdgeSet.ext hedges
  rfl

/-- The number of states. -/
def size (A : NFA α) : Nat := A.states.size

/-- All transitions, by source, then label, then target. -/
def edgeList (A : NFA α) : List (Edge (Label α)) := A.edges.toList

/-- Where a state goes under a label, if it goes anywhere. -/
def targets? (A : NFA α) (q : State) (l : Label α) : Option States :=
  A.edges.targets? q l

/-- Whether a state accepts. -/
def isFinal (A : NFA α) (q : State) : Bool := A.final.contains q

/-- **The lowest id above every state**, unless the highest id of all is
taken. -/
def freshId (A : NFA α) : Option State :=
  match A.states.max? with
  | none => some 0
  | some q => if q.toNat + 1 < UInt32.size then some (q + 1) else none

/-- The automaton with a single state and no edges. -/
def point (S : Alphabet α) (q : State) (accepts : Bool) : NFA α where
  alphabet := S
  start := q
  states := OrdSet.ofList [q]
  final := if accepts then OrdSet.ofList [q] else ∅
  edges := ∅

theorem wellFormed_point (S : Alphabet α) (q : State) (accepts : Bool) :
    (point S q accepts).WellFormed where
  start_mem := by simp [point]
  final_mem := by cases accepts <;> simp [point]
  source_mem := by simp [point]
  target_mem := by simp [point]
  symbol_mem := by simp [point]

end NFA

end Recognizer
