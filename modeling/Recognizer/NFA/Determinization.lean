import Recognizer.DFA.Basic
import Recognizer.NFA.Simulation

/-!
# Making an automaton deterministic

The sets of states that a run of a nondeterministic automaton can be at
are themselves the states of a deterministic one. `NFA.subsets` finds
all of them that are not empty, in the order of discovery from the set a
run starts from, symbols in the order of the alphabet, and
`NFA.determinize` numbers them in that order from zero on. A symbol that
leads to the empty set has no transition.
-/

namespace Recognizer.NFA

variable {α : Type} [LinearOrd α]

/-- The sets that one step leads to, by symbol. -/
def successors (A : NFA α) (S : States) : List States :=
  A.alphabet.toList.filterMap (A.nextSet? S)

/-- **The sets of states a run can be at**, in the order of discovery.
There are no more of them than sets of states. -/
def subsets (A : NFA α) : List States :=
  discover (Nat.pow 2 A.size) A.successors [A.startSet]

/-- Sets of states, each with its number. -/
def numberSubsets (Ss : List States) : OrdMap States State :=
  OrdMap.ofPairs (Ss.zipIdx.map fun x => (x.1, UInt32.ofNat x.2))

/-- The transitions that leave a set of states, by symbol, where the
sets have the given numbers. -/
def subsetTransitions (A : NFA α) (ids : OrdMap States State)
    (S : States) : List ((State × α) × State) :=
  A.alphabet.toList.filterMap fun a =>
    (A.nextSet? S a).map fun T => ((ids.getD S 0, a), ids.getD T 0)

/-- **The deterministic automaton on sets of states.** -/
def determinize (A : NFA α) : DFA α :=
  let Ss := A.subsets
  let ids := numberSubsets Ss
  { alphabet := A.alphabet
    start := 0
    states := OrdSet.ofList (Ss.map fun S => ids.getD S 0)
    final := OrdSet.ofList
      ((Ss.filter A.isFinalSet).map fun S => ids.getD S 0)
    table := OrdMap.ofPairs (Ss.flatMap (A.subsetTransitions ids)) }

/-! ## The sets found -/

/-- All sets of members of a list. -/
def allSubsets : List State → List States
  | [] => [∅]
  | q :: qs => allSubsets qs ++ (allSubsets qs).map fun S => S.insert q

theorem length_allSubsets (qs : List State) :
    (allSubsets qs).length = Nat.pow 2 qs.length := by
  induction qs with
  | nil => rfl
  | cons q qs ih => simp [allSubsets, ih, Nat.pow_succ, Nat.mul_two]

theorem mem_allSubsets {qs : List State} {S : States}
    (h : ∀ q ∈ S, q ∈ qs) : S ∈ allSubsets qs := by
  induction qs generalizing S with
  | nil =>
    refine List.mem_singleton.mpr (Std.ExtTreeSet.ext_mem fun q => ?_)
    exact ⟨fun hq => absurd (h q hq) List.not_mem_nil, fun hq => by
      simp at hq⟩
  | cons q qs ih =>
    rw [allSubsets, List.mem_append, List.mem_map]
    by_cases hq : q ∈ S
    · refine Or.inr ⟨S.erase q, ih fun p hp => ?_,
        Std.ExtTreeSet.ext_mem fun p => ?_⟩
      · have hp' := Std.ExtTreeSet.mem_erase.mp hp
        rcases List.mem_cons.mp (h p hp'.2) with rfl | hmem
        · exact absurd Std.ReflCmp.compare_self hp'.1
        · exact hmem
      · rw [OrdSet.mem_insert, Std.ExtTreeSet.mem_erase, ne_eq,
          LinearOrd.compare_eq_iff]
        by_cases hpq : p = q
        · simp [hpq, hq]
        · simp [hpq, Ne.symm hpq]
    · refine Or.inl (ih fun p hp => ?_)
      exact (List.mem_cons.mp (h p hp)).resolve_left fun e => hq (e ▸ hp)

@[simp] theorem mem_successors {A : NFA α} {S T : States} :
    T ∈ A.successors S ↔ ∃ a ∈ A.alphabet, A.nextSet? S a = some T := by
  simp [successors]

theorem silentClosure_subset_states {A : NFA α} (hA : A.WellFormed) {S : States}
    (hS : ∀ q ∈ S, q ∈ A.states) : ∀ q ∈ A.silentClosure S, q ∈ A.states := by
  intro q hq
  rw [mem_silentClosure_iff hA] at hq
  cases hq with
  | start h => exact hS q (Std.ExtTreeSet.mem_toList.mp h)
  | step _ h => exact hA.target_mem _ (mem_silentTargets.mp h)

theorem startSet_subset_states {A : NFA α} (hA : A.WellFormed) :
    ∀ q ∈ A.startSet, q ∈ A.states :=
  silentClosure_subset_states hA fun q hq => by
    rw [List.mem_singleton.mp (OrdSet.mem_ofList.mp hq)]
    exact hA.start_mem

theorem nextSet?_subset_states {A : NFA α} (hA : A.WellFormed) {S T : States}
    {a : α} (h : A.nextSet? S a = some T) : ∀ q ∈ T, q ∈ A.states := by
  rw [(nextSet?_eq_some_iff.mp h).1]
  refine silentClosure_subset_states hA fun q hq => ?_
  obtain ⟨p, -, he⟩ := mem_move_iff.mp hq
  exact hA.target_mem _ he

/-- **The sets found are those that steps reach.** -/
theorem mem_subsets_iff {A : NFA α} (hA : A.WellFormed) {S : States} :
    S ∈ A.subsets ↔ Reachable A.successors [A.startSet] S := by
  refine mem_discover_iff (fun T hT => Or.inr (?_ : T ∈ allSubsets A.states.toList))
    (Nat.le_of_eq ?_)
  · refine mem_allSubsets fun q hq => Std.ExtTreeSet.mem_toList.mpr ?_
    cases hT with
    | start h =>
      rw [List.mem_singleton.mp h] at hq
      exact startSet_subset_states hA q hq
    | step _ h =>
      obtain ⟨a, -, h⟩ := mem_successors.mp h
      exact nextSet?_subset_states hA h q hq
  · rw [length_allSubsets, Std.ExtTreeSet.length_toList, size]

theorem nodup_subsets (A : NFA α) : A.subsets.Nodup :=
  nodup_discover _ _ _

theorem startSet_mem_subsets (A : NFA α) : A.startSet ∈ A.subsets :=
  mem_discover_of_mem List.mem_cons_self

/-! ## Their numbers -/

/-- **A set's number is its place in the order of discovery.** -/
theorem getD_numberSubsets {Ss : List States} (h : Ss.Nodup) {S : States}
    {i : Nat} (hS : Ss[i]? = some S) :
    (numberSubsets Ss).getD S 0 = UInt32.ofNat i := by
  have hkeys : ((Ss.zipIdx.map fun x =>
      (x.1, UInt32.ofNat x.2)).map Prod.fst).Nodup := by
    rw [List.map_map]
    change (Ss.zipIdx.map Prod.fst).Nodup
    rwa [List.zipIdx_map_fst]
  have hm : (S, UInt32.ofNat i) ∈ Ss.zipIdx.map
      fun x => (x.1, UInt32.ofNat x.2) :=
    List.mem_map.mpr ⟨(S, i), List.mem_zipIdx_iff_getElem?.mpr hS, rfl⟩
  rw [Std.ExtTreeMap.getD_eq_getD_getElem?, numberSubsets,
    OrdMap.getElem?_ofPairs_of_nodup hkeys hm, Option.getD_some]

/-- The set a run starts from has number zero. -/
theorem getD_startSet (A : NFA α) :
    (numberSubsets A.subsets).getD A.startSet 0 = 0 := by
  have h : A.subsets[0]? = some A.startSet := by
    rw [← List.head?_eq_getElem?]
    exact head?_discover _ _ _ _
  exact getD_numberSubsets A.nodup_subsets h

/-- A transition of the deterministic automaton is a step between two
sets that were found. -/
theorem target?_determinize {A : NFA α} {q r : State} {a : α}
    (h : A.determinize.target? q a = some r) :
    ∃ S ∈ A.subsets, ∃ T, a ∈ A.alphabet ∧ A.nextSet? S a = some T ∧
      (numberSubsets A.subsets).getD S 0 = q ∧
      (numberSubsets A.subsets).getD T 0 = r := by
  obtain ⟨S, hS, hm⟩ := List.mem_flatMap.mp (OrdMap.mem_of_getElem?_ofPairs h)
  obtain ⟨b, hb, hm⟩ := List.mem_filterMap.mp hm
  obtain ⟨T, hT, hx⟩ := Option.map_eq_some_iff.mp hm
  cases hx
  exact ⟨S, hS, T, Std.ExtTreeSet.mem_toList.mp hb, hT, rfl, rfl⟩

/-- **The deterministic automaton is well-formed.** -/
theorem wellFormed_determinize {A : NFA α} (hA : A.WellFormed) :
    A.determinize.WellFormed := by
  have hstate : ∀ S ∈ A.subsets,
      (numberSubsets A.subsets).getD S 0 ∈ A.determinize.states :=
    fun S hS => OrdSet.mem_ofList.mpr (List.mem_map.mpr ⟨S, hS, rfl⟩)
  refine ⟨?_, fun q hq => ?_, fun q a r h => ?_, fun q a r h => ?_,
    fun q a r h => ?_⟩
  · have h := hstate _ A.startSet_mem_subsets
    rwa [getD_startSet] at h
  · obtain ⟨S, hS, rfl⟩ := List.mem_map.mp (OrdSet.mem_ofList.mp hq)
    exact hstate S (List.mem_filter.mp hS).1
  · obtain ⟨S, hS, T, -, -, rfl, -⟩ := target?_determinize h
    exact hstate S hS
  · obtain ⟨S, hS, T, ha, hT, -, rfl⟩ := target?_determinize h
    refine hstate T ((mem_subsets_iff hA).mpr ?_)
    exact .step ((mem_subsets_iff hA).mp hS)
      (mem_successors.mpr ⟨a, ha, hT⟩)
  · obtain ⟨S, hS, T, ha, -, -, -⟩ := target?_determinize h
    exact ha

end Recognizer.NFA
