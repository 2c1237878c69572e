import Recognizer.Proofs.Canonicity
import Recognizer.Proofs.Renaming
import Recognizer.Proofs.Simulation

/-!
# What does not depend on the names of states

A run does not look at the ids of states. It asks where they go and whether
one of them accepts, and a new name changes neither as long as no two states
get the same one. So a renamed automaton is always at the same states under
their new names (`NFA.follows_rename`), and it gives the same answers.

The search for the sets of states does look at ids, as the sets it has seen are
ordered by their members, and so are the states whose silent transitions it
follows. New names put both in another order. What it finds, and the order in
which it finds it, is told by the words that lead to the sets, and words do not
name states. A deterministic automaton is therefore equal to the one that is
made after renaming, with the same numbers (`NFA.determinize_rename`).
-/

namespace Recognizer.NFA

variable {α : Type} [LinearOrd α] {A : NFA α} {f : State → State}
  {S T : States} {a : α} {w : List α}

/-! ## Sets of states under new names -/

/-- **The states are listed under different names.** -/
theorem separates_iff_nodup : A.Separates f ↔ (A.states.toList.map f).Nodup := by
  rw [List.nodup_map_iff_inj_on (OrdSet.nodup_toList _)]
  simp only [Std.ExtTreeSet.mem_toList]
  exact Iff.rfl

/-- A state belongs to a set when its new name is among the new names. -/
theorem mem_image_iff_of_separates (hf : A.Separates f)
    (hS : ∀ q ∈ S, q ∈ A.states) {q : State} (hq : q ∈ A.states) :
    f q ∈ S.image f ↔ q ∈ S := by
  rw [OrdSet.mem_image]
  refine ⟨fun ⟨r, hr, he⟩ => ?_, fun hq => ⟨q, hq, rfl⟩⟩
  rwa [← hf r (hS r hr) q hq he]

/-- **No two sets of states fall together.** -/
theorem eq_of_image_eq_image (hf : A.Separates f) (hS : ∀ q ∈ S, q ∈ A.states)
    (hT : ∀ q ∈ T, q ∈ A.states) (h : S.image f = T.image f) : S = T := by
  have hmem : ∀ q ∈ A.states, (q ∈ S ↔ q ∈ T) := fun q hq => by
    rw [← mem_image_iff_of_separates hf hS hq, h,
      mem_image_iff_of_separates hf hT hq]
  exact Std.ExtTreeSet.ext_mem fun q =>
    ⟨fun hq => (hmem q (hS q hq)).mp hq, fun hq => (hmem q (hT q hq)).mpr hq⟩

/-- **Silent transitions lead to the same states** under their new names. -/
theorem silentClosure_rename (hA : A.WellFormed) (hf : A.Separates f)
    (hS : ∀ q ∈ S, q ∈ A.states) :
    (A.rename f).silentClosure (S.image f) = (A.silentClosure S).image f := by
  refine Std.ExtTreeSet.ext_mem fun r' => ?_
  rw [mem_silentClosure_iff_path (wellFormed_rename hA f), OrdSet.mem_image]
  simp only [mem_silentClosure_iff_path hA]
  constructor
  · rintro ⟨q', hq', h⟩
    obtain ⟨q, hq, rfl⟩ := OrdSet.mem_image.mp hq'
    obtain ⟨r, rfl, hpath⟩ := exists_path_of_rename hA hf (hS q hq) h
    exact ⟨r, ⟨q, hq, hpath⟩, rfl⟩
  · rintro ⟨r, ⟨q, hq, hpath⟩, rfl⟩
    exact ⟨f q, OrdSet.mem_image.mpr ⟨q, hq, rfl⟩, hpath.rename hA hf⟩

/-- **A symbol leads to the same states** under their new names. -/
theorem move_rename (hA : A.WellFormed) (hf : A.Separates f)
    (hS : ∀ q ∈ S, q ∈ A.states) :
    (A.rename f).move (S.image f) a = (A.move S a).image f := by
  refine Std.ExtTreeSet.ext_mem fun r' => ?_
  simp only [mem_move_iff, OrdSet.mem_image]
  constructor
  · rintro ⟨_, ⟨q, hq, rfl⟩, he'⟩
    obtain ⟨r, rfl, he⟩ := exists_edge_of_rename hA hf (hS q hq) rfl he'
    exact ⟨r, ⟨q, hq, he⟩, rfl⟩
  · rintro ⟨r, ⟨q, hq, he⟩, rfl⟩
    exact ⟨f q, ⟨q, hq, rfl⟩,
      (mem_edges_rename_of_separates hA hf).mpr ⟨_, he, rfl⟩⟩

theorem move_subset_states (hA : A.WellFormed) : ∀ q ∈ A.move S a, q ∈ A.states := by
  intro q hq
  obtain ⟨p, -, he⟩ := mem_move_iff.mp hq
  exact hA.target_mem _ he

/-! ## Runs under new names -/

theorem startSet_rename (hA : A.WellFormed) (hf : A.Separates f) :
    (A.rename f).startSet = A.startSet.image f := by
  have hstart : OrdSet.ofList [f A.start]
      = OrdSet.image f (OrdSet.ofList [A.start]) :=
    Std.ExtTreeSet.ext_mem fun q => by simp [eq_comm]
  show (A.rename f).silentClosure (OrdSet.ofList [f A.start]) = _
  rw [hstart]
  refine silentClosure_rename hA hf fun q hq => ?_
  rw [List.mem_singleton.mp (OrdSet.mem_ofList.mp hq)]
  exact hA.start_mem

/-- **A step leads to the same set**, and to a dead end where it did before. -/
theorem nextSet?_rename (hA : A.WellFormed) (hf : A.Separates f)
    (hS : ∀ q ∈ S, q ∈ A.states) :
    (A.rename f).nextSet? (S.image f) a = (A.nextSet? S a).map (·.image f) := by
  have hclosure : (A.rename f).silentClosure ((A.rename f).move (S.image f) a)
      = (A.silentClosure (A.move S a)).image f := by
    rw [move_rename hA hf hS, silentClosure_rename hA hf (move_subset_states hA)]
  ext T'
  rw [nextSet?_eq_some_iff, hclosure, Option.map_eq_some_iff]
  simp only [nextSet?_eq_some_iff]
  constructor
  · rintro ⟨rfl, r', hr'⟩
    obtain ⟨r, hr, -⟩ := OrdSet.mem_image.mp hr'
    exact ⟨_, ⟨rfl, r, hr⟩, rfl⟩
  · rintro ⟨_, ⟨rfl, r, hr⟩, rfl⟩
    exact ⟨rfl, f r, OrdSet.mem_image.mpr ⟨r, hr, rfl⟩⟩

theorem isFinalSet_rename (hA : A.WellFormed) (hf : A.Separates f)
    (hS : ∀ q ∈ S, q ∈ A.states) :
    (A.rename f).isFinalSet (S.image f) = A.isFinalSet S := by
  rw [Bool.eq_iff_iff]
  unfold isFinalSet
  simp only [OrdSet.meets_iff, mem_final_rename_of_separates hA hf]
  constructor
  · rintro ⟨_, hq', q, hq, rfl⟩
    have hqS := (mem_image_iff_of_separates hf hS (hA.final_mem q hq)).mp hq'
    exact ⟨q, hqS, hq⟩
  · rintro ⟨q, hqS, hq⟩
    exact ⟨f q, OrdSet.mem_image.mpr ⟨q, hqS, rfl⟩, q, hq, rfl⟩

/-- **A renamed automaton follows the automaton**: it is always at the same
states, under their new names. -/
theorem follows_rename (hA : A.WellFormed) (hf : A.Separates f) :
    (A.rename f).machine.Follows A.machine (·.image f)
      (fun S => ∀ q ∈ S, q ∈ A.states) where
  alphabet_eq := rfl
  start_eq := startSet_rename hA hf
  start_mem := startSet_subset_states hA
  next?_eq _ hS _ _ := nextSet?_rename hA hf hS
  next?_mem _ _ _ _ _ hT := nextSet?_subset_states hA hT
  final_eq _ hS := isFinalSet_rename hA hf hS

/-- **Renaming changes no answer**, faults included. -/
theorem run_rename (hA : A.WellFormed) (hf : A.Separates f) (w : List α) :
    (A.rename f).run w = A.run w :=
  (follows_rename hA hf).run_eq w

/-! ## The same deterministic automaton -/

/-- **The same sets are found in the same order**, under their new names. -/
theorem subsets_rename (hA : A.WellFormed) (hf : A.Separates f) :
    (A.rename f).subsets = A.subsets.map (·.image f) :=
  (discoveryOrder_subsets (wellFormed_rename hA f)).unique
    ((follows_rename hA hf).discoveryOrder_map
      (fun _ _ hS hT => eq_of_image_eq_image hf hS hT)
      (discoveryOrder_subsets hA))

/-- The sets found are sets of states. -/
theorem subset_states_of_mem_subsets (hA : A.WellFormed) (hS : S ∈ A.subsets) :
    ∀ q ∈ S, q ∈ A.states := by
  rw [mem_subsets_iff hA] at hS
  cases hS with
  | start h =>
    rw [List.mem_singleton.mp h]
    exact startSet_subset_states hA
  | step _ h =>
    obtain ⟨a, -, h⟩ := mem_successors.mp h
    exact nextSet?_subset_states hA h

/-- **The deterministic automaton forgets the names.** -/
theorem determinize_rename (hA : A.WellFormed)
    (hfit : A.subsets.length ≤ UInt32.size) (hf : A.Separates f) :
    (A.rename f).determinize = A.determinize := by
  have hsubsets := subsets_rename hA hf
  have hfit' : (A.rename f).subsets.length ≤ UInt32.size := by
    rwa [hsubsets, List.length_map]
  have hnumbers := numbers_determinize (wellFormed_rename hA f) hfit'
  rw [hsubsets] at hnumbers
  -- what numbers the sets under their new names numbers the sets
  exact (((follows_rename hA hf).numbers_map_iff
    (fun _ _ hS hT => eq_of_image_eq_image hf hS hT)
    fun _ hS => subset_states_of_mem_subsets hA hS).mp hnumbers).unique
      (numbers_determinize hA hfit)

/-! ## What numbering does -/

/-- **The names of states are of no account** to the deterministic automaton.
It is the same after a renaming, as long as no two states get the same name,
and after numbering from an offset on, as long as there are enough numbers. -/
theorem determinize_eq_of_renamed_or_packed (hA : A.WellFormed)
    (hfit : A.subsets.length ≤ UInt32.size) :
    (∀ f : Renaming, A.Separates f.apply →
      (A.rename f.apply).determinize = A.determinize) ∧
    ∀ offset B, A.pack offset = .ok B → B.determinize = A.determinize := by
  refine ⟨fun f hf => determinize_rename hA hfit hf, fun offset B h => ?_⟩
  obtain ⟨hroom, rfl⟩ := pack_eq_ok_iff.mp h
  exact determinize_rename hA hfit (separates_numbering hroom)

/-- Two ids that change places, a third that goes to a fourth, and the last
four ids that there are. -/
theorem determinize_eq_of_renamed_or_packed_roundabout :
    roundabout.WellFormed ∧ roundabout.subsets.length ≤ UInt32.size ∧
      roundabout.Separates
        (Renaming.apply (OrdMap.ofPairs [(7, 9), (9, 7), (3, 0)])) ∧
      (roundabout.rename (Renaming.apply
        (OrdMap.ofPairs [(7, 9), (9, 7), (3, 0)]))).determinize
          = roundabout.determinize ∧
      roundabout.pack 4294967292 = .ok (roundabout.packed 4294967292) ∧
      (roundabout.packed 4294967292).determinize = roundabout.determinize := by
  have hfit : roundabout.subsets.length ≤ UInt32.size := by decide
  have hsep : roundabout.Separates
      (Renaming.apply (OrdMap.ofPairs [(7, 9), (9, 7), (3, 0)])) :=
    separates_iff_nodup.mpr (by decide)
  have hpack : roundabout.pack 4294967292
      = .ok (roundabout.packed 4294967292) := by
    rw [pack_eq_ok_iff]
    exact ⟨by decide, rfl⟩
  obtain ⟨hrename, hpacked⟩ :=
    determinize_eq_of_renamed_or_packed wellFormed_roundabout hfit
  exact ⟨wellFormed_roundabout, hfit, hsep, hrename _ hsep, hpack,
    hpacked _ _ hpack⟩

end Recognizer.NFA
