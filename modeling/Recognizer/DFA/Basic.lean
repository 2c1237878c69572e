import Recognizer.Edge
import Recognizer.Machine

/-!
# Deterministic automata

A deterministic automaton goes from a state under a symbol to at most
one state. Where it goes to none, the run is at a dead end and the word
is not accepted.

That there is at most one target is not a condition on the data but its
shape: the transitions are a map. The other conditions are
`DFA.WellFormed`.
-/

namespace Recognizer

/-- **A deterministic automaton**, possibly with dead ends. -/
structure DFA (α : Type) [LinearOrd α] where
  alphabet : Alphabet α
  start : State
  states : States
  final : States
  /-- Where each state goes under each symbol. -/
  table : OrdMap (State × α) State
  deriving DecidableEq

namespace DFA

variable {α : Type} [LinearOrd α]

/-- Where a state goes under a symbol. -/
def target? (D : DFA α) (q : State) (a : α) : Option State :=
  D.table[(q, a)]?

/-- **The parts fit together.** -/
structure WellFormed (D : DFA α) : Prop where
  start_mem : D.start ∈ D.states
  final_mem : ∀ q ∈ D.final, q ∈ D.states
  source_mem : ∀ q a r, D.target? q a = some r → q ∈ D.states
  target_mem : ∀ q a r, D.target? q a = some r → r ∈ D.states
  symbol_mem : ∀ q a r, D.target? q a = some r → a ∈ D.alphabet

/-- Two automata with the same parts are the same. -/
theorem ext_target {D E : DFA α} (halphabet : D.alphabet = E.alphabet)
    (hstart : D.start = E.start) (hstates : ∀ q, q ∈ D.states ↔ q ∈ E.states)
    (hfinal : ∀ q, q ∈ D.final ↔ q ∈ E.final)
    (htarget : ∀ q a r, D.target? q a = some r ↔ E.target? q a = some r) :
    D = E := by
  obtain ⟨S, p, Q, F, M⟩ := D
  obtain ⟨T, q, R, G, N⟩ := E
  obtain rfl : S = T := halphabet
  obtain rfl : p = q := hstart
  obtain rfl : Q = R := Std.ExtTreeSet.ext_mem hstates
  obtain rfl : F = G := Std.ExtTreeSet.ext_mem hfinal
  obtain rfl : M = N := Std.ExtTreeMap.ext_getElem? fun ⟨q, a⟩ =>
    Option.ext fun r => htarget q a r
  rfl

/-- The number of states. -/
def size (D : DFA α) : Nat := D.states.size

/-- All transitions, by source, then symbol. -/
def edgeList (D : DFA α) : List (Edge α) :=
  D.table.toList.map fun entry => ⟨entry.1.1, entry.1.2, entry.2⟩

/-- Whether a state accepts. -/
def isFinal (D : DFA α) (q : State) : Bool := D.final.contains q

/-- A transition is listed exactly when the automaton takes it. -/
theorem mem_edgeList {D : DFA α} {e : Edge α} :
    e ∈ D.edgeList ↔ D.target? e.source e.label = some e.target := by
  obtain ⟨q, a, r⟩ := e
  simp only [edgeList, List.mem_map, target?]
  constructor
  · rintro ⟨⟨⟨q', a'⟩, r'⟩, h, he⟩
    cases he
    exact Std.ExtTreeMap.mem_toList_iff_getElem?_eq_some.mp h
  · intro h
    exact ⟨((q, a), r),
      Std.ExtTreeMap.mem_toList_iff_getElem?_eq_some.mpr h, rfl⟩

/-- **Transitions are listed by source, then symbol**, and no two share
both. -/
theorem sorted_edgeList (D : DFA α) :
    D.edgeList.Pairwise fun e f =>
      compare (e.source, e.label) (f.source, f.label) = .lt := by
  unfold edgeList
  rw [List.pairwise_map]
  exact Std.ExtTreeMap.ordered_keys_toList

/-- The automaton as a machine on its states. -/
def machine (D : DFA α) : Machine α State where
  alphabet := D.alphabet
  start := D.start
  next? := D.target?
  final := D.isFinal

/-- A walk takes symbols of the alphabet only. -/
theorem WellFormed.mem_alphabet_of_walk {D : DFA α} (hD : D.WellFormed)
    {q r : State} {w : List α} (h : D.machine.walk q w = some r) :
    ∀ a ∈ w, a ∈ D.alphabet := by
  induction w generalizing q with
  | nil => exact nofun
  | cons a w ih =>
    rw [Machine.walk_cons, Option.bind_eq_some_iff] at h
    obtain ⟨p, hp, h⟩ := h
    exact List.forall_mem_cons.mpr ⟨hD.symbol_mem q a p hp, ih h⟩

/-- **Runs a word.** -/
def run (D : DFA α) (w : List α) : Except (Fault α) Bool :=
  D.machine.run w

end DFA

end Recognizer
