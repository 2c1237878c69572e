import Recognizer.NFA.Determinization

/-!
# The deterministic automaton runs alike

Making an automaton deterministic gives every set of states that a run can
be at a number. The numbers carry the whole proof: as long as there are
enough of them no two sets share one (`getD_numberSubsets_inj`), so that a
number read as its set takes exactly the steps the set takes
(`target?_determinize_eq`). With that the deterministic automaton follows
the other one set by set, and a run of either ends where a run of the other
does, or at the same dead end.

The sets were found by looking at the symbols of the alphabet alone. A word
with another symbol never gets to a set: both automata have the same
alphabet and refuse the word for the same symbol before the first step.
-/

namespace Recognizer.NFA

variable {α : Type} [LinearOrd α] {A : NFA α}

/-- **No two sets share a number**, where there are enough numbers. -/
theorem getD_numberSubsets_inj {Ss : List States} (h : Ss.Nodup)
    (hfit : Ss.length ≤ UInt32.size) {S T : States} (hS : S ∈ Ss)
    (hT : T ∈ Ss)
    (he : (numberSubsets Ss).getD S 0 = (numberSubsets Ss).getD T 0) :
    S = T := by
  obtain ⟨i, hi, rfl⟩ := List.getElem_of_mem hS
  obtain ⟨j, hj, rfl⟩ := List.getElem_of_mem hT
  rw [getD_numberSubsets h (List.getElem?_eq_getElem hi),
    getD_numberSubsets h (List.getElem?_eq_getElem hj)] at he
  have hij : i = j := by
    rw [← UInt32.toNat_ofNat_of_lt' (Nat.lt_of_lt_of_le hi hfit), he,
      UInt32.toNat_ofNat_of_lt' (Nat.lt_of_lt_of_le hj hfit)]
  subst hij
  rfl

/-- A step of a run between two sets is listed under their numbers. -/
theorem mem_subsetTransitions {ids : OrdMap States State} {S T : States}
    {a : α} (ha : a ∈ A.alphabet) (h : A.nextSet? S a = some T) :
    ((ids.getD S 0, a), ids.getD T 0) ∈ A.subsetTransitions ids S := by
  unfold subsetTransitions
  rw [List.mem_filterMap]
  exact ⟨a, Std.ExtTreeSet.mem_toList.mpr ha, by rw [h, Option.map_some]⟩

/-- What is listed for a set under a number and a symbol is the step of a
run. -/
theorem eq_of_mem_subsetTransitions {ids : OrdMap States State}
    {S T : States} {a : α} (h : A.nextSet? S a = some T)
    {x : (State × α) × State} (hx : x ∈ A.subsetTransitions ids S)
    (hxa : x.1.2 = a) : x.2 = ids.getD T 0 := by
  obtain ⟨b, -, hb⟩ := List.mem_filterMap.mp hx
  obtain ⟨U, hU, rfl⟩ := Option.map_eq_some_iff.mp hb
  have hba : b = a := hxa
  rw [hba, h, Option.some.injEq] at hU
  rw [← hU]

/-- **A number takes the steps of its set.** -/
theorem target?_determinize_eq (hfit : A.subsets.length ≤ UInt32.size)
    {S : States} (hS : S ∈ A.subsets) {a : α} (ha : a ∈ A.alphabet) :
    A.determinize.target? ((numberSubsets A.subsets).getD S 0) a
      = (A.nextSet? S a).map fun T => (numberSubsets A.subsets).getD T 0 := by
  have hinj : ∀ U ∈ A.subsets, (numberSubsets A.subsets).getD U 0
      = (numberSubsets A.subsets).getD S 0 → U = S := fun U hU he =>
    getD_numberSubsets_inj A.nodup_subsets hfit hU hS he
  cases hT : A.nextSet? S a with
  | none =>
    rw [Option.map_none, Option.eq_none_iff_forall_ne_some]
    intro r hr
    obtain ⟨U, hU, T, -, hnext, hid, -⟩ := target?_determinize hr
    rw [hinj U hU hid, hT] at hnext
    exact absurd hnext nofun
  | some T =>
    rw [Option.map_some]
    refine OrdMap.getElem?_ofPairs_of_agree
      (List.mem_flatMap.mpr ⟨S, hS, mem_subsetTransitions ha hT⟩)
      fun x hx hk => ?_
    obtain ⟨U, hU, hx⟩ := List.mem_flatMap.mp hx
    -- the entry is listed for a set with the number of `S`, which is `S`
    have hUS : U = S := by
      obtain ⟨b, -, hb⟩ := List.mem_filterMap.mp hx
      obtain ⟨V, -, rfl⟩ := Option.map_eq_some_iff.mp hb
      exact hinj U hU (congrArg Prod.fst hk)
    rw [hUS] at hx
    exact eq_of_mem_subsetTransitions hT hx (congrArg Prod.snd hk)

/-- **A number accepts when its set does.** -/
theorem isFinal_determinize_eq (hfit : A.subsets.length ≤ UInt32.size)
    {S : States} (hS : S ∈ A.subsets) :
    A.determinize.isFinal ((numberSubsets A.subsets).getD S 0)
      = A.isFinalSet S := by
  rw [Bool.eq_iff_iff]
  unfold DFA.isFinal determinize
  rw [Std.ExtTreeSet.contains_iff_mem, OrdSet.mem_ofList, List.mem_map]
  constructor
  · rintro ⟨T, hT, he⟩
    obtain ⟨hT, hfinal⟩ := List.mem_filter.mp hT
    rwa [getD_numberSubsets_inj A.nodup_subsets hfit hT hS he] at hfinal
  · intro hfinal
    exact ⟨S, List.mem_filter.mpr ⟨hS, hfinal⟩, rfl⟩

/-- A step from a set that was found leads to a set that was found. -/
theorem nextSet?_mem_subsets (hA : A.WellFormed) {S T : States}
    (hS : S ∈ A.subsets) {a : α} (ha : a ∈ A.alphabet)
    (h : A.nextSet? S a = some T) : T ∈ A.subsets := by
  rw [mem_subsets_iff hA] at hS ⊢
  exact .step hS (mem_successors.mpr ⟨a, ha, h⟩)

/-- **The deterministic automaton follows the other one** from number to
number as that does from set to set. -/
theorem follows_determinize (hA : A.WellFormed)
    (hfit : A.subsets.length ≤ UInt32.size) :
    A.determinize.machine.Follows A.machine
      (fun S => (numberSubsets A.subsets).getD S 0) (· ∈ A.subsets) where
  alphabet_eq := rfl
  start_eq := A.getD_startSet.symm
  start_mem := A.startSet_mem_subsets
  next?_eq _ hS _ ha := target?_determinize_eq hfit hS ha
  next?_mem _ hS _ ha _ h := nextSet?_mem_subsets hA hS ha h
  final_eq _ hS := isFinal_determinize_eq hfit hS

/-- **Making an automaton deterministic changes no answer**: every word, with
symbols of the alphabet or others, has the same answer or the same fault. -/
theorem run_determinize (hA : A.WellFormed)
    (hfit : A.subsets.length ≤ UInt32.size) (w : List α) :
    A.determinize.run w = A.run w :=
  (follows_determinize hA hfit).run_eq w

/-- An automaton with ids from both ends of the range, a silent cycle, two
accepting states and one of them out of reach. -/
def roundabout : NFA Char where
  alphabet := OrdSet.ofList ['0', '1']
  start := 7
  states := OrdSet.ofList [3, 7, 9, 4294967295]
  final := OrdSet.ofList [3, 4294967295]
  edges := EdgeSet.ofList [⟨7, .silent, 9⟩, ⟨9, .silent, 7⟩,
    ⟨9, .symbol '0', 4294967295⟩, ⟨4294967295, .symbol '1', 7⟩]

theorem wellFormed_roundabout : roundabout.WellFormed := by
  constructor <;> simp [roundabout]

/-- A word over the alphabet and a word with a letter from outside it. -/
theorem run_determinize_roundabout :
    roundabout.WellFormed ∧ roundabout.subsets.length ≤ UInt32.size ∧
      roundabout.determinize.run ['0'] = roundabout.run ['0'] ∧
      roundabout.determinize.run ['1', 'x'] = roundabout.run ['1', 'x'] :=
  have hfit : roundabout.subsets.length ≤ UInt32.size := by decide
  ⟨wellFormed_roundabout, hfit,
    run_determinize wellFormed_roundabout hfit _,
    run_determinize wellFormed_roundabout hfit _⟩

end Recognizer.NFA
