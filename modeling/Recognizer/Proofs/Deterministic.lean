import Recognizer.DFA.Definition
import Recognizer.NFA.Definition
import Recognizer.Proofs.Canonicity

/-!
# Deterministic automata made deterministic

A deterministic automaton is a nondeterministic one that never uses its freedom:
its definition, with every symbol as a label, describes an automaton without
silent transitions in which a run is at one state at a time
(`DFA.toNFA`, `DFA.follows_toNFA`). Making that one deterministic gives the
automaton back without the states that no word leads to, the others numbered in
their order of discovery.

An automaton that was made deterministic before has no such states and has its
numbers in that order already. It comes back as it is, because to discover its
states is to discover the sets they stand for once more.
-/

namespace Recognizer

namespace DFA

variable {α : Type} [LinearOrd α] {D : DFA α}

/-- **A deterministic automaton as one that is not.** -/
def toNFA (D : DFA α) : NFA α where
  alphabet := D.alphabet
  start := D.start
  states := D.states
  final := D.final
  edges := EdgeSet.ofList (D.edgeList.map (Edge.mapLabel .symbol))

/-- Its edges are the transitions, each on a symbol. -/
theorem mem_edges_toNFA_iff {e : Edge (Label α)} :
    e ∈ D.toNFA.edges ↔
      ∃ q a r, D.target? q a = some r ∧ e = ⟨q, .symbol a, r⟩ := by
  rw [toNFA, EdgeSet.mem_ofList, List.mem_map]
  constructor
  · rintro ⟨⟨q, a, r⟩, h, rfl⟩
    exact ⟨q, a, r, mem_edgeList.mp h, rfl⟩
  · rintro ⟨q, a, r, h, rfl⟩
    exact ⟨⟨q, a, r⟩, mem_edgeList.mpr h, rfl⟩

@[simp] theorem symbol_mem_edges_toNFA {q r : State} {a : α} :
    (⟨q, .symbol a, r⟩ : Edge (Label α)) ∈ D.toNFA.edges ↔
      D.target? q a = some r := by
  rw [mem_edges_toNFA_iff]
  constructor
  · rintro ⟨_, _, _, h, ⟨⟩⟩
    exact h
  · exact fun h => ⟨q, a, r, h, rfl⟩

/-- No transition is silent. -/
theorem silent_not_mem_edges_toNFA {q r : State} :
    (⟨q, .silent, r⟩ : Edge (Label α)) ∉ D.toNFA.edges := by
  rw [mem_edges_toNFA_iff]
  rintro ⟨_, _, _, -, ⟨⟩⟩

theorem wellFormed_toNFA (hD : D.WellFormed) : D.toNFA.WellFormed := by
  refine ⟨hD.start_mem, hD.final_mem, fun e he => ?_, fun e he => ?_,
    fun e he b hb => ?_⟩
  all_goals obtain ⟨q, a, r, h, rfl⟩ := mem_edges_toNFA_iff.mp he
  · exact hD.source_mem q a r h
  · exact hD.target_mem q a r h
  · cases hb
    exact hD.symbol_mem q _ r h

/-- **The definition with symbols as labels describes the automaton.** -/
theorem ofDefinition_mapLabels (hD : D.WellFormed) :
    NFA.ofDefinition (D.toDefinition.mapLabels .symbol) = .ok D.toNFA :=
  NFA.ofDefinition_eq_ok_iff.mpr ⟨hD.final_mem, hD.start_mem, fun _ he =>
    (wellFormed_toNFA hD).edgeFault_eq_none (EdgeSet.mem_ofList.mpr he), rfl⟩

/-! ## One state at a time -/

/-- The set of one state. -/
def lone (q : State) : States := OrdSet.ofList [q]

@[simp] theorem mem_lone {p q : State} : p ∈ lone q ↔ p = q := by
  simp [lone]

theorem lone_inj {p q : State} (h : lone p = lone q) : p = q :=
  mem_lone.mp (h ▸ mem_lone.mpr rfl)

/-- Silent transitions lead nowhere. -/
theorem silentClosure_toNFA (hD : D.WellFormed) (S : States) :
    D.toNFA.silentClosure S = S :=
  Std.ExtTreeSet.ext_mem fun {q} => by
    rw [NFA.mem_silentClosure_iff (wellFormed_toNFA hD)]
    constructor
    · intro h
      cases h with
      | start h => exact Std.ExtTreeSet.mem_toList.mp h
      | step _ h =>
        exact absurd (NFA.mem_silentTargets.mp h) silent_not_mem_edges_toNFA
    · exact fun h => .start (Std.ExtTreeSet.mem_toList.mpr h)

/-- **From one state a symbol leads to one state at most.** -/
theorem nextSet?_toNFA (hD : D.WellFormed) (q : State) (a : α) :
    D.toNFA.nextSet? (lone q) a = (D.target? q a).map lone := by
  have hmove : ∀ r, r ∈ D.toNFA.move (lone q) a ↔ D.target? q a = some r := by
    simp
  ext T
  rw [NFA.nextSet?_eq_some_iff, silentClosure_toNFA hD, Option.map_eq_some_iff]
  constructor
  · rintro ⟨rfl, r, hr⟩
    have htarget := (hmove r).mp hr
    refine ⟨r, htarget, Std.ExtTreeSet.ext_mem fun p => ?_⟩
    rw [mem_lone, hmove, htarget, Option.some.injEq, eq_comm]
  · rintro ⟨r, htarget, rfl⟩
    refine ⟨Std.ExtTreeSet.ext_mem fun p => ?_, r, mem_lone.mpr rfl⟩
    rw [mem_lone, hmove, htarget, Option.some.injEq, eq_comm]

/-- **The nondeterministic automaton follows the deterministic one.** -/
theorem follows_toNFA (hD : D.WellFormed) :
    D.toNFA.machine.Follows D.machine lone fun _ => True where
  alphabet_eq := rfl
  start_eq := silentClosure_toNFA hD _
  start_mem := trivial
  next?_eq q _ a _ := nextSet?_toNFA hD q a
  next?_mem _ _ _ _ _ _ := trivial
  final_eq q _ := by
    show (lone q).meets D.final = D.final.contains q
    rw [Bool.eq_iff_iff, OrdSet.meets_iff, Std.ExtTreeSet.contains_iff_mem]
    simp

/-! ## Made deterministic again -/

variable {qs : List State}

/-- **The states have an order of discovery.** -/
theorem exists_discoveryOrder (hD : D.WellFormed) :
    ∃ qs, D.machine.DiscoveryOrder qs := by
  have hstates : ∀ q, Reachable D.machine.successors [D.start] q →
      q ∈ [D.start] ∨ q ∈ D.states.toList := fun q hq => by
    cases hq with
    | start h => exact Or.inl h
    | step _ h =>
      obtain ⟨a, -, h⟩ := List.mem_filterMap.mp h
      exact Or.inr (Std.ExtTreeSet.mem_toList.mpr (hD.target_mem _ a _ h))
  exact ⟨_, Machine.discoveryOrder_discover fun q =>
    mem_discover_iff hstates (Nat.le_refl _)⟩

/-- **The sets of states found are those of one discovered state each.** -/
theorem subsets_toNFA (hD : D.WellFormed) (hqs : D.machine.DiscoveryOrder qs) :
    D.toNFA.subsets = qs.map lone :=
  (NFA.discoveryOrder_subsets (wellFormed_toNFA hD)).unique
    ((follows_toNFA hD).discoveryOrder_map (fun _ _ _ _ => lone_inj) hqs)

/-- **Made deterministic, the automaton has the discovered states alone**, each
numbered by its place. There is an id for each, since they are states. -/
theorem numbers_determinize_toNFA (hD : D.WellFormed)
    (hqs : D.machine.DiscoveryOrder qs) :
    D.toNFA.determinize.Numbers D.machine qs := by
  have hsubsets := subsets_toNFA hD hqs
  have hfit : D.toNFA.subsets.length ≤ UInt32.size := by
    rw [hsubsets, List.length_map]
    exact length_le_of_nodup hqs.nodup
  have hnumbers := NFA.numbers_determinize (wellFormed_toNFA hD) hfit
  rw [hsubsets] at hnumbers
  exact ((follows_toNFA hD).numbers_map_iff (fun _ _ _ _ => lone_inj)
    fun _ _ => trivial).mp hnumbers

/-- **What was made deterministic comes back as it is.** The sets that its
numbers stand for were listed in their order of discovery, so the numbers are
in theirs. -/
theorem determinize_toNFA_determinize {A : NFA α} (hA : A.WellFormed)
    (hfit : A.subsets.length ≤ UInt32.size) :
    A.determinize.toNFA.determinize = A.determinize := by
  have hfollows := NFA.follows_determinize hA hfit
  have hinj : ∀ S T, S ∈ A.subsets → T ∈ A.subsets →
      (NFA.numberSubsets A.subsets).getD S 0
        = (NFA.numberSubsets A.subsets).getD T 0 → S = T :=
    fun _ _ => NFA.getD_numberSubsets_inj A.nodup_subsets hfit
  have hqs := hfollows.discoveryOrder_map hinj (NFA.discoveryOrder_subsets hA)
  have hnumbers := (hfollows.numbers_map_iff hinj fun _ hS => hS).mpr
    (NFA.numbers_determinize hA hfit)
  exact (numbers_determinize_toNFA (NFA.wellFormed_determinize hA) hqs).unique
    hnumbers

/-- **A deterministic automaton made deterministic.** Its definition, with
symbols as labels, describes a nondeterministic automaton that gives every word
the same answer or the same fault. Made deterministic, that one numbers the
states that words lead to in the shortlex order of their least words. An
automaton that was made deterministic, with an id for every set that was found,
comes back as it is. -/
theorem determinize_definition_is_canonical (hD : D.WellFormed) :
    ∃ A, NFA.ofDefinition (D.toDefinition.mapLabels .symbol) = .ok A ∧
      (∀ w, A.run w = D.run w) ∧
      (∃ qs, D.machine.DiscoveryOrder qs ∧
        A.determinize.Numbers D.machine qs) ∧
      ∀ N : NFA α, N.WellFormed → N.subsets.length ≤ UInt32.size →
        D = N.determinize → A.determinize = D := by
  obtain ⟨qs, hqs⟩ := exists_discoveryOrder hD
  refine ⟨D.toNFA, ofDefinition_mapLabels hD, (follows_toNFA hD).run_eq,
    ⟨qs, hqs, numbers_determinize_toNFA hD hqs⟩, ?_⟩
  rintro N hN hfit rfl
  exact determinize_toNFA_determinize hN hfit

/-- An automaton with ids from both ends of the range and a state out of
reach. -/
def scattered : DFA Char where
  alphabet := OrdSet.ofList ['0', '1']
  start := 7
  states := OrdSet.ofList [3, 7, 4294967295]
  final := OrdSet.ofList [3, 4294967295]
  table := OrdMap.ofPairs [((7, '1'), 4294967295), ((4294967295, '0'), 7),
    ((3, '0'), 7)]

theorem wellFormed_scattered : scattered.WellFormed := by
  have hedges : ∀ e ∈ scattered.edgeList, e.source ∈ scattered.states ∧
      e.target ∈ scattered.states ∧ e.label ∈ scattered.alphabet := by decide
  exact ⟨by decide, by simp [scattered],
    fun q a r h => (hedges ⟨q, a, r⟩ (mem_edgeList.mpr h)).1,
    fun q a r h => (hedges ⟨q, a, r⟩ (mem_edgeList.mpr h)).2.1,
    fun q a r h => (hedges ⟨q, a, r⟩ (mem_edgeList.mpr h)).2.2⟩

/-- One automaton that loses a state and gets other numbers, and one that was
made deterministic before. -/
theorem determinize_scattered_and_roundabout :
    scattered.WellFormed ∧ NFA.roundabout.WellFormed ∧
      NFA.roundabout.subsets.length ≤ UInt32.size ∧
      (∃ A, NFA.ofDefinition (scattered.toDefinition.mapLabels .symbol)
          = .ok A ∧
        A.run ['1', '0', 'x'] = scattered.run ['1', '0', 'x'] ∧
        ∃ qs, scattered.machine.DiscoveryOrder qs ∧
          A.determinize.Numbers scattered.machine qs) ∧
      ∃ A, NFA.ofDefinition
          (NFA.roundabout.determinize.toDefinition.mapLabels .symbol)
          = .ok A ∧
        A.determinize = NFA.roundabout.determinize := by
  have hN := NFA.wellFormed_roundabout
  have hfit : NFA.roundabout.subsets.length ≤ UInt32.size := by decide
  obtain ⟨A, hA, hrun, hnumbers, -⟩ :=
    determinize_definition_is_canonical wellFormed_scattered
  obtain ⟨B, hB, -, -, hback⟩ :=
    determinize_definition_is_canonical (NFA.wellFormed_determinize hN)
  exact ⟨wellFormed_scattered, hN, hfit, ⟨A, hA, hrun _, hnumbers⟩,
    ⟨B, hB, hback _ hN hfit rfl⟩⟩

/-- The state out of reach is gone and the other two are numbered. -/
example : scattered.toNFA.determinize.edgeList = [⟨0, '1', 1⟩, ⟨1, '0', 0⟩] := by
  decide

end DFA

end Recognizer
