import Recognizer.Definition
import Recognizer.NFA.Basic

/-!
# Nondeterministic automata from definitions

A definition describes an automaton when nothing in it speaks of a
state or a symbol that is not there. `NFA.ofDefinition` makes the
automaton, or names the first thing that is missing: an accepting state
that is no state, then a start that is none, then what is wrong with the
first transition at fault. `NFA.toDefinition` reads the definition of an
automaton off.
-/

namespace Recognizer.NFA

variable {α : Type} [LinearOrd α]

/-- **What is wrong with a transition**: a symbol from outside the
alphabet, a target that is no state, or a source that is none, looked
for in that order. -/
def edgeFault (S : Alphabet α) (states : States) (e : Edge (Label α)) :
    Option (Fault α) :=
  match S.firstOutside e.label.toOption.toList with
  | some a => some (.outsideSymbol a)
  | none =>
    if e.target ∉ states then some (.missingState e.target)
    else if e.source ∉ states then some (.missingState e.source)
    else none

/-- **The automaton with these states and transitions.** A state listed
again replaces the former; the order and repetition of transitions
matter only to which fault is named. -/
def assemble (S : Alphabet α) (start : State)
    (states : List (State × Bool)) (transitions : List (Edge (Label α))) :
    Except (Fault α) (NFA α) :=
  if start ∉ flaggedIds states then .error (.missingState start)
  else match transitions.findSome? (edgeFault S (flaggedIds states)) with
    | some fault => .error fault
    | none => .ok {
        alphabet := S
        start := start
        states := flaggedIds states
        final := flaggedFinal states
        edges := EdgeSet.ofList transitions }

theorem edgeFault_eq_none_iff {S : Alphabet α} {states : States}
    {e : Edge (Label α)} :
    edgeFault S states e = none ↔ (∀ a, e.label = .symbol a → a ∈ S) ∧
      e.target ∈ states ∧ e.source ∈ states := by
  have hsymbol : S.firstOutside e.label.toOption.toList = none ↔
      ∀ a, e.label = .symbol a → a ∈ S := by
    rw [Alphabet.firstOutside_eq_none_iff]
    cases e.label <;> simp [Label.toOption]
  rw [← hsymbol]
  unfold edgeFault
  cases S.firstOutside e.label.toOption.toList with
  | some a => simp
  | none =>
    by_cases ht : e.target ∈ states <;> by_cases hs : e.source ∈ states <;>
      simp [ht, hs]

/-- **There is an automaton** when the start is a state and no
transition is at fault. -/
theorem assemble_eq_ok_iff {S : Alphabet α} {start : State}
    {states : List (State × Bool)} {transitions : List (Edge (Label α))}
    {A : NFA α} :
    assemble S start states transitions = .ok A ↔
      start ∈ flaggedIds states ∧
      (∀ e ∈ transitions, edgeFault S (flaggedIds states) e = none) ∧
      A = ⟨S, start, flaggedIds states, flaggedFinal states,
        EdgeSet.ofList transitions⟩ := by
  unfold assemble
  by_cases hs : start ∈ flaggedIds states
  · cases hf : transitions.findSome? (edgeFault S (flaggedIds states)) with
    | none =>
      rw [List.findSome?_eq_none_iff] at hf
      simp only [hs, not_true, if_false, true_and, Except.ok.injEq]
      exact ⟨fun h => ⟨hf, h.symm⟩, fun h => h.2.symm⟩
    | some fault =>
      have hn : ¬ ∀ e ∈ transitions,
          edgeFault S (flaggedIds states) e = none := fun h => by
        rw [List.findSome?_eq_none_iff.mpr h] at hf
        exact absurd hf nofun
      simp only [hs, not_true, if_false, true_and, hn, false_and]
      exact ⟨nofun, nofun⟩
  · simp [hs]

/-- What is made from transitions is well-formed. -/
theorem wellFormed_of_assemble {S : Alphabet α} {start : State}
    {states : List (State × Bool)} {transitions : List (Edge (Label α))}
    {A : NFA α} (h : assemble S start states transitions = .ok A) :
    A.WellFormed := by
  obtain ⟨hs, he, rfl⟩ := assemble_eq_ok_iff.mp h
  have hmem : ∀ e ∈ EdgeSet.ofList transitions,
      (∀ a, e.label = .symbol a → a ∈ S) ∧ e.target ∈ flaggedIds states ∧
        e.source ∈ flaggedIds states := fun e h =>
    edgeFault_eq_none_iff.mp (he e (EdgeSet.mem_ofList.mp h))
  exact ⟨hs, fun _ => flaggedFinal_subset, fun e h => (hmem e h).2.2,
    fun e h => (hmem e h).2.1, fun e h => (hmem e h).1⟩

/-- **The automaton that a definition describes.** -/
def ofDefinition (d : Definition α (Label α)) : Except (Fault α) (NFA α) :=
  match d.strayAccept with
  | some q => .error (.missingState q)
  | none => assemble d.alphabet d.start d.flaggedStates d.transitions

/-- **The definition of an automaton**, its transitions in order. -/
def toDefinition (A : NFA α) : Definition α (Label α) where
  alphabet := A.alphabet
  states := A.states
  start := A.start
  accept := A.final
  transitions := A.edgeList

/-- **A definition describes an automaton** when it speaks of nothing that is
missing, and the automaton has the parts of the definition. -/
theorem ofDefinition_eq_ok_iff {d : Definition α (Label α)} {A : NFA α} :
    ofDefinition d = .ok A ↔
      (∀ q ∈ d.accept, q ∈ d.states) ∧ d.start ∈ d.states ∧
      (∀ e ∈ d.transitions, edgeFault d.alphabet d.states e = none) ∧
      A = ⟨d.alphabet, d.start, d.states, d.accept,
        EdgeSet.ofList d.transitions⟩ := by
  unfold ofDefinition
  cases hstray : d.strayAccept with
  | some q =>
    refine ⟨nofun, fun h => ?_⟩
    rw [Definition.strayAccept_eq_none_iff.mpr h.1] at hstray
    exact absurd hstray nofun
  | none =>
    have haccept := Definition.strayAccept_eq_none_iff.mp hstray
    rw [and_iff_right haccept, assemble_eq_ok_iff,
      Definition.flaggedIds_flaggedStates,
      Definition.flaggedFinal_flaggedStates haccept]

/-- **What a definition describes has the parts of the definition.** -/
theorem eq_of_ofDefinition {d : Definition α (Label α)} {A : NFA α}
    (h : ofDefinition d = .ok A) :
    A = ⟨d.alphabet, d.start, d.states, d.accept,
      EdgeSet.ofList d.transitions⟩ :=
  (ofDefinition_eq_ok_iff.mp h).2.2.2

/-- What a definition describes is well-formed. -/
theorem wellFormed_of_ofDefinition {d : Definition α (Label α)} {A : NFA α}
    (h : ofDefinition d = .ok A) : A.WellFormed := by
  unfold ofDefinition at h
  split at h
  · exact absurd h nofun
  · exact wellFormed_of_assemble h

/-- Nothing is wrong with an edge of a well-formed automaton. -/
theorem WellFormed.edgeFault_eq_none {A : NFA α} (hA : A.WellFormed)
    {e : Edge (Label α)} (he : e ∈ A.edges) :
    edgeFault A.alphabet A.states e = none :=
  edgeFault_eq_none_iff.mpr
    ⟨hA.symbol_mem e he, hA.target_mem e he, hA.source_mem e he⟩

/-- **A well-formed automaton is described by its definition**, so that
well-formed automata are exactly those that definitions describe. -/
theorem ofDefinition_toDefinition {A : NFA α} (hA : A.WellFormed) :
    ofDefinition A.toDefinition = .ok A := by
  refine ofDefinition_eq_ok_iff.mpr ⟨hA.final_mem, hA.start_mem, fun e he =>
    hA.edgeFault_eq_none (EdgeSet.mem_toList.mp he), ?_⟩
  show A = ⟨A.alphabet, A.start, A.states, A.final,
    EdgeSet.ofList A.edges.toList⟩
  rw [EdgeSet.ofList_toList]

/-- The automaton of two states that accepts one symbol and nothing
else. -/
def single (S : Alphabet α) (a : α) : Except (Fault α) (NFA α) :=
  assemble S 0 [(0, false), (1, true)] [⟨0, .symbol a, 1⟩]

end Recognizer.NFA
