import Recognizer.DFA.Definition
import Recognizer.Document
import Recognizer.NFA.Determinization
import Recognizer.Proofs.Limits

/-!
# The automata that can be obtained

An automaton is plain data, and not all such data fit together. A caller does
not write them down, though: an automaton is obtained from transitions, a
definition, a document, a symbol, a tree or a pattern, and from others by
combining, packing and renaming, any number of times and in any order.
`NFA.Obtainable` and `DFA.Obtainable` say just that, one constructor an
operation.

Every operation takes well-formed automata to well-formed ones, also where
the ids do not suffice and also where a renaming lets states fall together.
So what can be obtained is well-formed, and since a well-formed automaton is
described by its own definition, the converse holds too
(`NFA.obtainable_iff_wellFormed`, `DFA.obtainable_iff_wellFormed`): a theorem
about well-formed automata is a theorem about those that can be obtained, and
about no others.
-/

namespace Recognizer

/-- **The nondeterministic automata that can be obtained.** -/
inductive NFA.Obtainable : {α : Type} → [LinearOrd α] → NFA α → Prop where
  | assemble {α : Type} [LinearOrd α] {S : Alphabet α} {start : State}
      {states : List (State × Bool)} {transitions : List (Edge (Label α))}
      {A : NFA α} : NFA.assemble S start states transitions = .ok A →
      A.Obtainable
  | ofDefinition {α : Type} [LinearOrd α] {d : Definition α (Label α)}
      {A : NFA α} : NFA.ofDefinition d = .ok A → A.Obtainable
  | ofDocument {α : Type} [LinearOrd α] [SymbolCodec α] {doc : Document}
      {d : Definition α (Label α)} {A : NFA α} :
      Codec.decode doc = some d → NFA.ofDefinition d = .ok A → A.Obtainable
  | single {α : Type} [LinearOrd α] {S : Alphabet α} {a : α} {A : NFA α} :
      NFA.single S a = .ok A → A.Obtainable
  | ofTree {α : Type} [LinearOrd α] {S : Alphabet α} {L : Limits}
      {t : Regex α} {A : NFA α} : t.toNFA S L = .ok A → A.Obtainable
  | ofPattern {S : Alphabet Char} {L : Limits} {pattern : String}
      {A : NFA Char} : NFA.ofPattern S L pattern = .ok A → A.Obtainable
  | sequence {α : Type} [LinearOrd α] {A B : NFA α} :
      A.Obtainable → B.Obtainable → (A.sequence B).Obtainable
  | choice {α : Type} [LinearOrd α] {A B : NFA α} :
      A.Obtainable → B.Obtainable → (A.choice B).Obtainable
  | star {α : Type} [LinearOrd α] {A : NFA α} :
      A.Obtainable → A.star.Obtainable
  | funnel {α : Type} [LinearOrd α] {A : NFA α} :
      A.Obtainable → A.funnel.Obtainable
  | pack {α : Type} [LinearOrd α] {A B : NFA α} {offset : State} :
      A.Obtainable → A.pack offset = .ok B → B.Obtainable
  | rename {α : Type} [LinearOrd α] {A : NFA α} (f : Renaming) :
      A.Obtainable → (A.rename f.apply).Obtainable

/-- **The deterministic automata that can be obtained.** -/
inductive DFA.Obtainable {α : Type} [LinearOrd α] : DFA α → Prop where
  | assemble {S : Alphabet α} {start : State} {states : List (State × Bool)}
      {transitions : List (Edge (Label α))} {D : DFA α} :
      DFA.assemble S start states transitions = .ok D → D.Obtainable
  | ofDefinition {d : Definition α α} {D : DFA α} :
      DFA.ofDefinition d = .ok D → D.Obtainable
  | ofDocument [SymbolCodec α] {doc : Document} {d : Definition α α}
      {D : DFA α} : Codec.decode doc = some d → DFA.ofDefinition d = .ok D →
      D.Obtainable
  | determinize {A : NFA α} : A.Obtainable → A.determinize.Obtainable

namespace NFA

variable {α : Type} [LinearOrd α] {A B : NFA α}

/-- A packed automaton is a renamed one. -/
theorem wellFormed_of_pack (hA : A.WellFormed) {offset : State}
    (h : A.pack offset = .ok B) : B.WellFormed := by
  obtain ⟨-, rfl⟩ := pack_eq_ok_iff.mp h
  exact wellFormed_rename hA _

/-- **What can be obtained is well-formed.** -/
theorem Obtainable.wellFormed (h : A.Obtainable) : A.WellFormed := by
  induction h with
  | assemble h => exact wellFormed_of_assemble h
  | ofDefinition h => exact wellFormed_of_ofDefinition h
  | ofDocument _ h => exact wellFormed_of_ofDefinition h
  | single h => exact wellFormed_of_assemble h
  | ofTree h => exact Regex.wellFormed_of_toNFA h
  | ofPattern h => exact wellFormed_of_ofPattern h
  | sequence _ _ hA hB => exact wellFormed_sequence hA hB
  | choice _ _ hA hB => exact wellFormed_choice hA hB
  | star _ hA => exact wellFormed_star hA
  | funnel _ hA => exact wellFormed_funnel hA
  | pack _ h hA => exact wellFormed_of_pack hA h
  | rename f _ hA => exact wellFormed_rename hA f.apply

/-- **Exactly the well-formed automata can be obtained.** -/
theorem obtainable_iff_wellFormed : A.Obtainable ↔ A.WellFormed :=
  ⟨Obtainable.wellFormed, fun h => .ofDefinition (ofDefinition_toDefinition h)⟩

end NFA

namespace DFA

variable {α : Type} [LinearOrd α] {D : DFA α}

/-- **What can be obtained is well-formed.** -/
theorem Obtainable.wellFormed (h : D.Obtainable) : D.WellFormed := by
  cases h with
  | assemble h => exact wellFormed_of_assemble h
  | ofDefinition h => exact wellFormed_of_ofDefinition h
  | ofDocument _ h => exact wellFormed_of_ofDefinition h
  | determinize h => exact NFA.wellFormed_determinize h.wellFormed

/-- **Exactly the well-formed automata can be obtained.** -/
theorem obtainable_iff_wellFormed : D.Obtainable ↔ D.WellFormed :=
  ⟨Obtainable.wellFormed, fun h => .ofDefinition (ofDefinition_toDefinition h)⟩

end DFA

/-- **What can be obtained has its parts fit together.** The start and the
accepting states are states. Of a nondeterministic automaton every set of
targets that is stored is non-empty and holds states, and it is stored for a
state and a label that is silent or a symbol of the alphabet. A deterministic
automaton has transitions between states under symbols of the alphabet, which
are never silent, and no two of them leave one state under one symbol. -/
theorem representation_of_obtainable :
    (∀ (α : Type) [LinearOrd α] (A : NFA α), A.Obtainable →
      A.start ∈ A.states ∧ (∀ q ∈ A.final, q ∈ A.states) ∧
      ∀ q l T, A.targets? q l = some T →
        q ∈ A.states ∧ (∀ a, l = .symbol a → a ∈ A.alphabet) ∧ T ≠ ∅ ∧
        ∀ r ∈ T, r ∈ A.states) ∧
    (∀ (α : Type) [LinearOrd α] (D : DFA α), D.Obtainable →
      D.start ∈ D.states ∧ (∀ q ∈ D.final, q ∈ D.states) ∧
      (∀ e ∈ D.edgeList,
        e.source ∈ D.states ∧ e.target ∈ D.states ∧ e.label ∈ D.alphabet) ∧
      ∀ e ∈ D.edgeList, ∀ f ∈ D.edgeList,
        e.source = f.source → e.label = f.label → e = f) := by
  refine ⟨fun α _ A h => ?_, fun α _ D h => ?_⟩
  · have hA := h.wellFormed
    refine ⟨hA.start_mem, hA.final_mem, fun q l T hT => ?_⟩
    obtain ⟨hne, rfl⟩ := EdgeSet.targets?_eq_some_iff.mp hT
    -- a set that is stored has a target, so it is stored for an edge
    obtain ⟨r, hr⟩ := not_forall_not.mp
      (mt Std.ExtTreeSet.eq_empty_iff_forall_not_mem.mpr hne)
    have he : ⟨q, l, r⟩ ∈ A.edges := EdgeSet.mem_targets.mp hr
    exact ⟨hA.source_mem _ he, hA.symbol_mem _ he, hne,
      fun p hp => hA.target_mem _ (EdgeSet.mem_targets.mp hp)⟩
  · have hD := h.wellFormed
    refine ⟨hD.start_mem, hD.final_mem, fun e he => ?_,
      fun e he f hf hsource hlabel => ?_⟩
    · have he := DFA.mem_edgeList.mp he
      exact ⟨hD.source_mem _ _ _ he, hD.target_mem _ _ _ he,
        hD.symbol_mem _ _ _ he⟩
    · have he := DFA.mem_edgeList.mp he
      have hf := DFA.mem_edgeList.mp hf
      rw [hsource, hlabel] at he
      obtain ⟨q, a, r⟩ := e
      obtain ⟨q', a', r'⟩ := f
      cases hsource
      cases hlabel
      cases he.symm.trans hf
      rfl

/-- Two letters in turn, any number of times, and then two states with one
name. -/
def NFA.merged : NFA Char :=
  ((letter (Alphabet.ofString "a") 'a').sequence
    (letter (Alphabet.ofString "b") 'b')).star.rename
      (Renaming.apply (OrdMap.ofPairs [(0, 7), (3, 7)]))

theorem NFA.obtainable_merged : NFA.merged.Obtainable :=
  .rename _ (.star (.sequence (.single (single_eq_letter (by decide)))
    (.single (single_eq_letter (by decide)))))

/-- The state with two former names goes silently to two states. -/
theorem representation_of_merged :
    NFA.merged.Obtainable ∧
      NFA.merged.targets? 7 .silent = some (OrdSet.ofList [5, 7]) ∧
      (7 ∈ NFA.merged.states ∧ (OrdSet.ofList [5, 7] : States) ≠ ∅ ∧
        ∀ r ∈ (OrdSet.ofList [5, 7] : States), r ∈ NFA.merged.states) ∧
      NFA.merged.determinize.Obtainable ∧
      ∀ e ∈ NFA.merged.determinize.edgeList,
        e.target ∈ NFA.merged.determinize.states := by
  have hA := NFA.obtainable_merged
  have hD : NFA.merged.determinize.Obtainable := .determinize hA
  have htargets : NFA.merged.targets? 7 .silent
      = some (OrdSet.ofList [5, 7]) := by decide +kernel
  obtain ⟨-, -, hstored⟩ := representation_of_obtainable.1 Char _ hA
  obtain ⟨hq, -, hne, hr⟩ := hstored 7 .silent _ htargets
  obtain ⟨-, -, hedge, -⟩ := representation_of_obtainable.2 Char _ hD
  exact ⟨hA, htargets, ⟨hq, hne, hr⟩, hD, fun e he => (hedge e he).2.1⟩

end Recognizer
