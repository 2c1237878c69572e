import Recognizer.Proofs.Obtainable

/-!
# Automata as definitions and as documents

An automaton is handed on as its definition, and the definition as a document.
Neither loses anything of an automaton that can be obtained: its definition
describes it and no other, and what was written as a document is read back.

The way from a definition to an automaton and back does lose something, and
only that: in which order the transitions were given, and how often.
`Definition.Tidies` says what is left, the same parts with every transition
listed once, by source, then label, then target. How labels are ordered is a
parameter, for a nondeterministic automaton has a silent label behind all
symbols (`Label.Before`) and a deterministic one has symbols only.
-/

namespace Recognizer

/-! ## The order of transitions -/

/-- **Symbols in their order, and the silent label behind them all.** -/
def Label.Before {α : Type} [LinearOrd α] : Label α → Label α → Prop
  | symbol a, symbol b => compare a b = .lt
  | symbol _, silent => True
  | silent, _ => False

/-- **By source, then label, then target**, with this order of labels. -/
def Edge.Before {ℓ : Type} (before : ℓ → ℓ → Prop) (e f : Edge ℓ) : Prop :=
  e.source < f.source ∨ e.source = f.source ∧
    (before e.label f.label ∨ e.label = f.label ∧ e.target < f.target)

theorem Label.compare_eq_lt_iff_before {α : Type} [LinearOrd α]
    {l m : Label α} : compare l m = .lt ↔ l.Before m := by
  cases l <;> cases m <;> simp [Before]

theorem Edge.compare_eq_lt_iff_before {ℓ : Type} [LinearOrd ℓ]
    {e f : Edge ℓ} :
    compare e f = .lt ↔ e.Before (fun l m => compare l m = .lt) f := by
  have hsource : compare e.source f.source = .lt ↔ e.source < f.source :=
    Std.compare_eq_lt
  have htarget : compare e.target f.target = .lt ↔ e.target < f.target :=
    Std.compare_eq_lt
  rw [Before, ← hsource, ← htarget]
  exact LinearOrd.compare_pair_eq_lt_iff.trans
    (or_congr_right (and_congr_right fun _ => LinearOrd.compare_pair_eq_lt_iff))

/-- **The same definition with its transitions put in order**, each of them
listed once. -/
structure Definition.Tidies {α ℓ : Type} [LinearOrd α]
    (before : ℓ → ℓ → Prop) (d' d : Definition α ℓ) : Prop where
  alphabet_eq : d'.alphabet = d.alphabet
  states_eq : d'.states = d.states
  start_eq : d'.start = d.start
  accept_eq : d'.accept = d.accept
  mem_transitions_iff : ∀ e, e ∈ d'.transitions ↔ e ∈ d.transitions
  sorted : d'.transitions.Pairwise (Edge.Before before)

/-! ## From a definition and back -/

/-- **The definition of a nondeterministic automaton tidies the one it was
made from.** -/
theorem NFA.toDefinition_tidies {α : Type} [LinearOrd α]
    {d : Definition α (Label α)} {A : NFA α} (h : ofDefinition d = .ok A) :
    A.toDefinition.Tidies Label.Before d := by
  cases eq_of_ofDefinition h
  refine ⟨rfl, rfl, rfl, rfl, fun e => ?_, ?_⟩
  · exact EdgeSet.mem_toList.trans EdgeSet.mem_ofList
  · refine (EdgeSet.sorted_toList _).imp fun hlt => ?_
    simpa only [Edge.Before, Label.compare_eq_lt_iff_before] using
      Edge.compare_eq_lt_iff_before.mp hlt

/-- **The definition of a deterministic automaton tidies the one it was made
from.** -/
theorem DFA.toDefinition_tidies {α : Type} [LinearOrd α]
    {d : Definition α α} {D : DFA α} (h : ofDefinition d = .ok D) :
    D.toDefinition.Tidies (fun a b => compare a b = .lt) d := by
  obtain ⟨table, rfl, htable⟩ := exists_table_of_ofDefinition h
  refine ⟨rfl, rfl, rfl, rfl, fun e => ?_, ?_⟩
  · exact mem_edgeList.trans (htable e.source e.label e.target)
  · -- no two transitions share source and symbol, so targets never decide
    refine (sorted_edgeList _).imp fun hlt => ?_
    rw [LinearOrd.compare_pair_eq_lt_iff, Std.compare_eq_lt] at hlt
    exact hlt.imp_right fun ⟨hsource, hlabel⟩ => ⟨hsource, Or.inl hlabel⟩

/-! ## By way of a document -/

/-- **What is written is read back**: an alphabet, and an automaton by way of
its definition. -/
structure Exchanges (α : Type) [LinearOrd α] [SymbolCodec α] : Prop where
  alphabet : ∀ S : Alphabet α, Codec.decode (Codec.encode S) = some S
  nondeterministic : ∀ A : NFA α, A.Obtainable →
    ∃ d, Codec.decode (Codec.encode A.toDefinition) = some d ∧
      NFA.ofDefinition d = .ok A
  deterministic : ∀ D : DFA α, D.Obtainable →
    ∃ d, Codec.decode (Codec.encode D.toDefinition) = some d ∧
      DFA.ofDefinition d = .ok D

/-- Symbols that can be written and read are enough. -/
theorem exchanges (α : Type) [LinearOrd α] [SymbolCodec α] : Exchanges α where
  alphabet := Codec.decode_encode
  nondeterministic A hA := ⟨A.toDefinition, Codec.decode_encode _,
    NFA.ofDefinition_toDefinition hA.wellFormed⟩
  deterministic D hD := ⟨D.toDefinition, Codec.decode_encode _,
    DFA.ofDefinition_toDefinition hD.wellFormed⟩

/-- **An automaton that can be obtained is told by its definition and by its
document.** Its definition describes it. The definition of what a definition
describes is that definition again, with every transition listed once and in
order. Over characters, integers and texts alphabets and automata that were
written as documents are read back. -/
theorem ofDefinition_toDefinition_and_exchanges :
    (∀ (α : Type) [LinearOrd α] (A : NFA α), A.Obtainable →
      NFA.ofDefinition A.toDefinition = .ok A) ∧
    (∀ (α : Type) [LinearOrd α] (d : Definition α (Label α)) (A : NFA α),
      NFA.ofDefinition d = .ok A → A.toDefinition.Tidies Label.Before d) ∧
    (∀ (α : Type) [LinearOrd α] (D : DFA α), D.Obtainable →
      DFA.ofDefinition D.toDefinition = .ok D) ∧
    (∀ (α : Type) [LinearOrd α] (d : Definition α α) (D : DFA α),
      DFA.ofDefinition d = .ok D →
      D.toDefinition.Tidies (fun a b => compare a b = .lt) d) ∧
    Exchanges Char ∧ Exchanges Int64 ∧ Exchanges String :=
  ⟨fun _ _ _ hA => NFA.ofDefinition_toDefinition hA.wellFormed,
    fun _ _ _ _ h => NFA.toDefinition_tidies h,
    fun _ _ _ hD => DFA.ofDefinition_toDefinition hD.wellFormed,
    fun _ _ _ _ h => DFA.toDefinition_tidies h,
    exchanges Char, exchanges Int64, exchanges String⟩

/-- A definition with its transitions in no order, one of them given twice. -/
def untidy : Definition Char (Label Char) where
  alphabet := Alphabet.ofString "ab"
  states := OrdSet.ofList [3, 7]
  start := 7
  accept := OrdSet.ofList [3]
  transitions := [⟨7, .silent, 3⟩, ⟨7, .symbol 'b', 7⟩, ⟨3, .symbol 'a', 7⟩,
    ⟨7, .silent, 3⟩, ⟨7, .symbol 'b', 3⟩]

/-- The same of a deterministic automaton. -/
def untidyTable : Definition Int64 Int64 where
  alphabet := OrdSet.ofList [1, -1]
  states := OrdSet.ofList [0]
  start := 0
  accept := ∅
  transitions := [⟨0, 1, 0⟩, ⟨0, -1, 0⟩, ⟨0, 1, 0⟩]

/-- Transitions that are given untidily come back in order, and an automaton
of many operations is told by its definition and its document. -/
theorem exchanges_merged_and_untidy :
    NFA.merged.Obtainable ∧
      NFA.ofDefinition NFA.merged.toDefinition = .ok NFA.merged ∧
      (∃ d, Codec.decode (Codec.encode NFA.merged.toDefinition) = some d ∧
        NFA.ofDefinition d = .ok NFA.merged) ∧
      (∃ A, NFA.ofDefinition untidy = .ok A ∧
        A.toDefinition.Tidies Label.Before untidy ∧
        A.toDefinition.transitions = [⟨3, .symbol 'a', 7⟩, ⟨7, .symbol 'b', 3⟩,
          ⟨7, .symbol 'b', 7⟩, ⟨7, .silent, 3⟩]) ∧
      ∃ D, DFA.ofDefinition untidyTable = .ok D ∧ D.Obtainable ∧
        DFA.ofDefinition D.toDefinition = .ok D ∧
        D.toDefinition.Tidies (fun a b => compare a b = .lt) untidyTable ∧
        D.toDefinition.transitions = [⟨0, -1, 0⟩, ⟨0, 1, 0⟩] ∧
        ∃ d, Codec.decode (Codec.encode D.toDefinition) = some d ∧
          DFA.ofDefinition d = .ok D := by
  obtain ⟨hnfa, hnfaTidies, hdfa, hdfaTidies, hchar, hint, -⟩ :=
    ofDefinition_toDefinition_and_exchanges
  have hmerged := NFA.obtainable_merged
  refine ⟨hmerged, hnfa Char _ hmerged, hchar.nondeterministic _ hmerged, ?_, ?_⟩
  · obtain ⟨A, hA, htransitions⟩ : ∃ A, NFA.ofDefinition untidy = .ok A ∧
        A.toDefinition.transitions = [⟨3, .symbol 'a', 7⟩, ⟨7, .symbol 'b', 3⟩,
          ⟨7, .symbol 'b', 7⟩, ⟨7, .silent, 3⟩] := ⟨_, rfl, by decide +kernel⟩
    exact ⟨A, hA, hnfaTidies Char _ _ hA, htransitions⟩
  · obtain ⟨D, hD, htransitions⟩ : ∃ D, DFA.ofDefinition untidyTable = .ok D ∧
        D.toDefinition.transitions = [⟨0, -1, 0⟩, ⟨0, 1, 0⟩] :=
      ⟨_, rfl, by decide +kernel⟩
    have hobtainable : D.Obtainable := .ofDefinition hD
    exact ⟨D, hD, hobtainable, hdfa Int64 _ hobtainable,
      hdfaTidies Int64 _ _ hD, htransitions, hint.deterministic _ hobtainable⟩

end Recognizer
