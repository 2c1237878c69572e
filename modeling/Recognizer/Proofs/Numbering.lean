import Recognizer.Journal
import Recognizer.Proofs.Answers
import Recognizer.Proofs.Determinization
import Recognizer.Proofs.Discovery
import Recognizer.Proofs.Simulation

/-!
# How sets of states are numbered

The deterministic automaton is the same whenever it is made, and its numbers
can be told in advance. Its states are the sets of states that the words over
the alphabet lead to (`NFA.After`), the empty set apart, each of them once
however many words lead to it. They are numbered from zero on in the order of
the least words that lead to them, where words are compared by shortlex: the
search is by layers, and a layer goes through the symbols in order.

After a word the deterministic automaton is at the number of the set that the
word leads to, for every word, since a word with a symbol from outside the
alphabet leads to no state of either automaton. What the log says of a number
is true as well.
-/

namespace Recognizer

namespace NFA

variable {α : Type} [LinearOrd α] {A : NFA α} {w : List α} {S : States}

/-! ## The set after a word -/

/-- **The set of the states after a word.** -/
def After (A : NFA α) (w : List α) (S : States) : Prop :=
  ∀ q, q ∈ S ↔ A.Reaches w q

/-- There is one set after a word. -/
theorem After.unique {T : States} (hS : A.After w S) (hT : A.After w T) :
    S = T :=
  Std.ExtTreeSet.ext_mem fun {q} => (hS q).trans (hT q).symm

/-- **A run is at the set after its word**, unless that is empty. -/
theorem walk_eq_some_iff (hA : A.WellFormed) :
    A.machine.walk A.startSet w = some S ↔ (∃ q, q ∈ S) ∧ A.After w S := by
  constructor
  · intro h
    exact ⟨exists_mem_of_walk ⟨A.start, subset_silentClosure (by simp)⟩ h,
      fun q => mem_iff_reaches_of_walk hA h⟩
  · rintro ⟨⟨q, hq⟩, hS⟩
    cases hT : A.machine.walk A.startSet w with
    | none => exact absurd ((hS q).mp hq) ((walk_eq_none_iff hA).mp hT q)
    | some T =>
      exact congrArg some
        (After.unique (fun q => mem_iff_reaches_of_walk hA hT) hS)

/-- What reaches a state is a word over the alphabet. -/
theorem mem_alphabet_of_reaches (hA : A.WellFormed) {q : State}
    (h : A.Reaches w q) : ∀ a ∈ w, a ∈ A.alphabet :=
  (reaches_iff_path.mp h).mem_alphabet hA

/-! ## The sets found -/

/-- **The sets found are those after words**, the empty set apart. -/
theorem mem_subsets_iff_exists_after (hA : A.WellFormed) :
    S ∈ A.subsets ↔
      (∃ q, q ∈ S) ∧ ∃ w, (∀ a ∈ w, a ∈ A.alphabet) ∧ A.After w S := by
  rw [mem_subsets_iff hA]
  refine (Machine.reachable_iff_exists_walk (M := A.machine)).trans ?_
  constructor
  · rintro ⟨w, hw, hS⟩
    obtain ⟨hne, hafter⟩ := (walk_eq_some_iff hA).mp hS
    exact ⟨hne, w, hw, hafter⟩
  · rintro ⟨hne, w, hw, hafter⟩
    exact ⟨w, hw, (walk_eq_some_iff hA).mpr ⟨hne, hafter⟩⟩

/-- **The sets found are in the order of the least words** that lead to
them. -/
theorem exists_leastWords_subsets (hA : A.WellFormed) :
    ∃ ws : List (List α), ws.Pairwise Precedes ∧
      List.Forall₂ (fun w S => IsLeastWord A.alphabet (A.After · S) w) ws
        A.subsets := by
  obtain ⟨ws, hsorted, hws⟩ :=
    A.machine.exists_leastWords_discover (Nat.pow 2 A.size)
  refine ⟨ws, hsorted, hws.imp fun w S hw => ?_⟩
  obtain ⟨hne, hafter⟩ := (walk_eq_some_iff hA).mp hw.holds
  exact ⟨hw.mem_alphabet, hafter, fun v hv hvS =>
    hw.eq_or_precedes v hv ((walk_eq_some_iff hA).mpr ⟨hne, hvS⟩)⟩

/-! ## Their numbers -/

section Numbers

variable (hfit : A.subsets.length ≤ UInt32.size)
include hfit

/-- **A number is the place of its set.** -/
theorem getElem?_subsets_eq_some_iff {k : State} :
    A.subsets[k.toNat]? = some S ↔
      S ∈ A.subsets ∧ (numberSubsets A.subsets).getD S 0 = k := by
  constructor
  · intro h
    refine ⟨List.mem_of_getElem? h, ?_⟩
    rw [getD_numberSubsets A.nodup_subsets h, UInt32.ofNat_toNat]
  · rintro ⟨hS, hk⟩
    obtain ⟨i, hi⟩ := List.getElem?_of_mem hS
    obtain ⟨hlt, -⟩ := List.getElem?_eq_some_iff.mp hi
    rw [getD_numberSubsets A.nodup_subsets hi] at hk
    rw [← hk, UInt32.toNat_ofNat_of_lt' (Nat.lt_of_lt_of_le hlt hfit)]
    exact hi

/-- **The states are the numbers from zero on**, one for each set. -/
theorem mem_states_determinize_iff {k : State} :
    k ∈ A.determinize.states ↔ k.toNat < A.subsets.length := by
  rw [determinize, OrdSet.mem_ofList, List.mem_map]
  simp only [← getElem?_subsets_eq_some_iff hfit, List.getElem?_eq_some_iff]
  constructor
  · rintro ⟨_, h, -⟩
    exact h
  · exact fun h => ⟨_, h, rfl⟩

/-- **After a word the deterministic automaton is at the number of the set**
after the word. -/
theorem walk_determinize_eq_some_iff (hA : A.WellFormed) {k : State} :
    A.determinize.machine.walk A.determinize.start w = some k ↔
      ∃ S, A.subsets[k.toNat]? = some S ∧ A.After w S := by
  -- over the alphabet the numbers follow the sets
  have hover : (∀ a ∈ w, a ∈ A.alphabet) →
      (A.determinize.machine.walk A.determinize.start w = some k ↔
        ∃ S, A.subsets[k.toNat]? = some S ∧ A.After w S) := by
    intro hw
    have hfollows := follows_determinize hA hfit
    obtain ⟨hwalk, hmem⟩ := hfollows.walk_eq hw hfollows.start_mem
    rw [show A.determinize.start = _ from hfollows.start_eq, hwalk,
      Option.map_eq_some_iff]
    refine exists_congr fun S => ?_
    rw [getElem?_subsets_eq_some_iff hfit]
    constructor
    · rintro ⟨hS, hk⟩
      exact ⟨⟨hmem S hS, hk⟩, ((walk_eq_some_iff hA).mp hS).2⟩
    · rintro ⟨⟨hS, hk⟩, hafter⟩
      have hne := ((mem_subsets_iff_exists_after hA).mp hS).1
      exact ⟨(walk_eq_some_iff hA).mpr ⟨hne, hafter⟩, hk⟩
  constructor
  · intro h
    exact (hover ((wellFormed_determinize hA).mem_alphabet_of_walk h)).mp h
  · rintro ⟨S, hS, hafter⟩
    obtain ⟨q, hq⟩ :=
      ((mem_subsets_iff_exists_after hA).mp (List.mem_of_getElem? hS)).1
    exact (hover (mem_alphabet_of_reaches hA ((hafter q).mp hq))).mpr
      ⟨S, hS, hafter⟩

/-- **The deterministic automaton is at a dead end** when the word leads to no
state. -/
theorem walk_determinize_eq_none_iff (hA : A.WellFormed) :
    A.determinize.machine.walk A.determinize.start w = none ↔
      ∀ q, ¬ A.Reaches w q := by
  constructor
  · intro h q hq
    cases hS : A.machine.walk A.startSet w with
    | none => exact (walk_eq_none_iff hA).mp hS q hq
    | some S =>
      obtain ⟨hwalk, -⟩ := (follows_determinize hA hfit).walk_eq
        (mem_alphabet_of_reaches hA hq) A.startSet_mem_subsets
      rw [A.getD_startSet] at hwalk
      rw [show A.machine.walk A.startSet w = some S from hS] at hwalk
      exact absurd (h.symm.trans hwalk) nofun
  · intro h
    rw [Option.eq_none_iff_forall_ne_some]
    intro k hk
    obtain ⟨S, hS, hafter⟩ := (walk_determinize_eq_some_iff hfit hA).mp hk
    obtain ⟨q, hq⟩ :=
      ((mem_subsets_iff_exists_after hA).mp (List.mem_of_getElem? hS)).1
    exact h q ((hafter q).mp hq)

/-- **A number accepts** when its set has an accepting state. -/
theorem isFinal_determinize_iff {k : State}
    (hS : A.subsets[k.toNat]? = some S) :
    A.determinize.isFinal k = true ↔ ∃ q ∈ S, q ∈ A.final := by
  obtain ⟨hmem, hk⟩ := (getElem?_subsets_eq_some_iff hfit).mp hS
  rw [← hk, isFinal_determinize_eq hfit hmem]
  exact OrdSet.meets_iff

end Numbers

/-- **The log names every set but the first**, with its place. -/
theorem discovered_mem_journal_iff {k : Nat} :
    Event.discovered S k ∈ Journal.ofDeterminization A ↔
      1 ≤ k ∧ A.subsets[k]? = some S := by
  have hplace : (S, k) ∈ A.subsets.zipIdx.drop 1 ↔
      1 ≤ k ∧ A.subsets[k]? = some S := by
    rw [List.mem_iff_getElem?]
    simp only [List.getElem?_drop, List.getElem?_zipIdx, Nat.zero_add,
      Option.map_eq_some_iff, Prod.mk.injEq]
    constructor
    · rintro ⟨i, T, hT, rfl, rfl⟩
      exact ⟨Nat.le_add_right 1 i, hT⟩
    · rintro ⟨hk, hS⟩
      have hsub : 1 + (k - 1) = k := Nat.add_sub_of_le hk
      exact ⟨k - 1, S, by rw [hsub, hS], rfl, hsub⟩
  rw [← hplace, Journal.ofDeterminization]
  simp

/-- **What the states of the deterministic automaton are, and their numbers.**

It has the alphabet of the other one and starts at zero. Its states are the
numbers below the number of sets found, where each set is found once, and these
are all sets but the empty one that a word over the alphabet leads to. Listed
with the least words that lead to them, the sets are in shortlex order. After
any word the automaton is at the number of the set after the word, and at a
dead end when that set is empty. A number accepts when its set has an accepting
state, and the log names the sets with these numbers. -/
theorem determinize_numbers_sets_by_leastWords (hA : A.WellFormed)
    (hfit : A.subsets.length ≤ UInt32.size) :
    A.determinize.start = 0 ∧ A.determinize.alphabet = A.alphabet ∧
    (∀ k, k ∈ A.determinize.states ↔ k.toNat < A.subsets.length) ∧
    A.subsets.Nodup ∧
    (∀ S, S ∈ A.subsets ↔
      (∃ q, q ∈ S) ∧ ∃ w, (∀ a ∈ w, a ∈ A.alphabet) ∧ A.After w S) ∧
    (∃ ws : List (List α), ws.Pairwise Precedes ∧
      List.Forall₂ (fun w S => IsLeastWord A.alphabet (A.After · S) w) ws
        A.subsets) ∧
    (∀ w k, A.determinize.machine.walk A.determinize.start w = some k ↔
      ∃ S, A.subsets[k.toNat]? = some S ∧ A.After w S) ∧
    (∀ w, A.determinize.machine.walk A.determinize.start w = none ↔
      ∀ q, ¬ A.Reaches w q) ∧
    (∀ (k : State) S, A.subsets[k.toNat]? = some S →
      (A.determinize.isFinal k = true ↔ ∃ q ∈ S, q ∈ A.final)) ∧
    ∀ k S, Event.discovered S k ∈ Journal.ofDeterminization A ↔
      1 ≤ k ∧ A.subsets[k]? = some S := by
  refine ⟨rfl, rfl, fun k => mem_states_determinize_iff hfit, A.nodup_subsets,
    fun S => mem_subsets_iff_exists_after hA, exists_leastWords_subsets hA,
    fun w k => walk_determinize_eq_some_iff hfit hA,
    fun w => walk_determinize_eq_none_iff hfit hA,
    fun k S => isFinal_determinize_iff hfit,
    fun k S => discovered_mem_journal_iff⟩

/-- A word that leads around a cycle is back at the first set, the set after
the first digit is the second one and accepts, and the log says so. -/
theorem determinize_roundabout_numbers_sets :
    roundabout.WellFormed ∧ roundabout.subsets.length ≤ UInt32.size ∧
      (∃ S, roundabout.subsets[0]? = some S ∧
        roundabout.After ['0', '1', '0', '1'] S) ∧
      roundabout.determinize.isFinal 1 = true ∧
      Event.discovered (OrdSet.ofList [4294967295]) 1
        ∈ Journal.ofDeterminization roundabout := by
  have hfit : roundabout.subsets.length ≤ UInt32.size := by decide
  have hsecond : roundabout.subsets[1]?
      = some (OrdSet.ofList [4294967295]) := by decide
  obtain ⟨-, -, -, -, -, -, hwalk, -, hfinal, hlog⟩ :=
    determinize_numbers_sets_by_leastWords wellFormed_roundabout hfit
  refine ⟨wellFormed_roundabout, hfit,
    (hwalk ['0', '1', '0', '1'] 0).mp (by decide), ?_, ?_⟩
  · exact (hfinal 1 _ hsecond).mpr ⟨4294967295, by decide, by decide⟩
  · exact (hlog 1 _).mpr ⟨Nat.le_refl 1, hsecond⟩

end NFA

end Recognizer
