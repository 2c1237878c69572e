import Recognizer.Proofs.Fragment
import Recognizer.Proofs.Renaming

/-!
# What combined automata accept

Sequence, choice and repetition of automata do to words what their names
say. The combined automata are fragments put together, so that two things
are left to show. The fragment of an automaton spells what the automaton
accepts (`spells_fragment_iff`): numbering is a renaming, and a fresh exit
is reached from the accepting states alone. And the fragments have no ids
in common: they are intervals that follow each other, with the fresh states
of a choice or a star behind them.

All this holds as long as there are ids enough. How many it takes is
`fragmentSize`, the number of states once exactly one accepts, and the
combined automata are numbered from zero on without a gap
(`states_sequence`, `states_choice`, `states_star`).
-/

namespace Recognizer.NFA

variable {α : Type} [LinearOrd α] {A B : NFA α}

/-! ## The fragment of an automaton -/

/-- **How many states the fragment of an automaton has**: one more than the
automaton, unless exactly one state accepts. -/
def fragmentSize (A : NFA α) : Nat :=
  if A.final.size = 1 then A.size else A.size + 1

theorem size_le_fragmentSize (A : NFA α) : A.size ≤ A.fragmentSize := by
  unfold fragmentSize
  split <;> omega

/-- Where there are ids for the fragment there are ids for the states. -/
theorem fit_size {offset : State}
    (hfit : offset.toNat + A.fragmentSize ≤ UInt32.size) :
    offset.toNat + A.size ≤ UInt32.size :=
  Nat.le_trans (Nat.add_le_add_left A.size_le_fragmentSize _) hfit

/-- An automaton has a state. -/
theorem size_pos (hA : A.WellFormed) : 0 < A.size := by
  rw [Nat.pos_iff_ne_zero]
  intro h
  have hempty := Std.ExtTreeSet.eq_empty_iff_size_eq_zero.mpr h
  exact Std.ExtTreeSet.not_mem_empty (hempty ▸ hA.start_mem)

/-- Where one state accepts the exit is there. -/
theorem exists_fragment_eq (hA : A.WellFormed) {offset : State}
    (hfit : offset.toNat + A.size ≤ UInt32.size) (h : A.final.size = 1) :
    ∃ exit, (A.packed offset).final = OrdSet.ofList [exit] ∧
      A.fragment offset = ⟨(A.packed offset).start, exit,
        (A.packed offset).states, (A.packed offset).edges⟩ := by
  have hlen : (A.packed offset).final.toList.length = 1 := by
    rw [Std.ExtTreeSet.length_toList, packed,
      size_final_rename hA (separates_numbering hfit), h]
  obtain ⟨exit, hexit⟩ := List.length_eq_one_iff.mp hlen
  refine ⟨exit, by rw [← hexit, OrdSet.ofList_toList], ?_⟩
  unfold fragment
  dsimp only
  rw [hexit]

/-- Then the fragment is the automaton with its states numbered. -/
theorem toNFA_fragment (hA : A.WellFormed) {offset : State}
    (hfit : offset.toNat + A.size ≤ UInt32.size) (h : A.final.size = 1) :
    (A.fragment offset).toNFA A.alphabet = A.packed offset := by
  obtain ⟨exit, hfinal, heq⟩ := exists_fragment_eq hA hfit h
  rw [heq, Fragment.toNFA, ← hfinal]
  rfl

/-- Where none or several do the exit is fresh. -/
theorem fragment_eq (hA : A.WellFormed) {offset : State}
    (hfit : offset.toNat + A.size ≤ UInt32.size) (h : A.final.size ≠ 1) :
    A.fragment offset = ⟨(A.packed offset).start,
      offset + UInt32.ofNat A.size,
      (A.packed offset).states.insert (offset + UInt32.ofNat A.size),
      (A.packed offset).edges.linkAll (A.packed offset).final.toList
        (offset + UInt32.ofNat A.size)⟩ := by
  unfold fragment
  dsimp only
  split
  · next exit hexit =>
    have hlen : (A.packed offset).final.toList.length = 1 := by rw [hexit]; rfl
    rw [Std.ExtTreeSet.length_toList, packed,
      size_final_rename hA (separates_numbering hfit)] at hlen
    exact absurd hlen h
  · rfl

/-- **The states of a fragment** are the ids from the offset on. -/
theorem states_fragment (hA : A.WellFormed) {offset : State}
    (hfit : offset.toNat + A.fragmentSize ≤ UInt32.size) :
    (A.fragment offset).states = idsFrom offset A.fragmentSize := by
  have hfit' := fit_size hfit
  by_cases h : A.final.size = 1
  · obtain ⟨exit, -, heq⟩ := exists_fragment_eq hA hfit' h
    rw [heq, fragmentSize, if_pos h]
    exact states_packed offset
  · rw [fragment_eq hA hfit' h, fragmentSize, if_neg h]
    show (A.packed offset).states.insert _ = _
    rw [states_packed, insert_idsFrom]

theorem size_fragment (hA : A.WellFormed) {offset : State}
    (hfit : offset.toNat + A.fragmentSize ≤ UInt32.size) :
    (A.fragment offset).size = A.fragmentSize := by
  rw [Fragment.size, states_fragment hA hfit, size_idsFrom hfit]

/-- A state behind a fragment is none of its states. -/
theorem not_mem_fragment (hA : A.WellFormed) {i : Nat}
    (hi : A.fragmentSize ≤ i) (hlt : i < UInt32.size) :
    UInt32.ofNat i ∉ (A.fragment 0).states := by
  rw [states_fragment hA (fit_zero (by omega)),
    ← UInt32.zero_add (UInt32.ofNat i)]
  exact not_mem_idsFrom hi (by rwa [UInt32.toNat_zero, Nat.zero_add])

/-- A fresh exit is reached from the accepting states, and from nowhere
else. -/
theorem path_linkAll_iff {N : NFA α} (hA : A.WellFormed) {exit : State}
    (hexit : exit ∉ A.states)
    (hN : N.edges = A.edges.linkAll A.final.toList exit) {w : List α} :
    N.Path A.start w exit ↔ A.Accepts w := by
  have hedge : ∀ e, e ∈ N.edges ↔
      (∃ q ∈ A.final, e = ⟨q, .silent, exit⟩) ∨ e ∈ A.edges := by
    intro e
    rw [hN, EdgeSet.mem_linkAll]
    simp only [Std.ExtTreeSet.mem_toList]
  have hleave : ∀ e ∈ N.edges, e.source ∈ A.states → e ∈ A.edges ∨
      e.label = .silent ∧ e.source ∈ A.final ∧ e.target = exit := by
    intro e he _
    rcases (hedge e).mp he with ⟨q, hq, rfl⟩ | he
    · exact Or.inr ⟨rfl, hq, rfl⟩
    · exact Or.inl he
  have hend : ∀ e ∈ N.edges, e.source ≠ exit := by
    intro e he hs
    rcases (hedge e).mp he with ⟨q, hq, rfl⟩ | he
    · exact hexit (hs ▸ hA.final_mem q hq)
    · exact hexit (hs ▸ hA.source_mem e he)
  refine ⟨fun h => ?_, fun ⟨q, hq, h⟩ => ?_⟩
  · obtain ⟨u, v, x, y, rfl, hu, ⟨hx, rfl⟩, hv⟩ :=
      Path.exists_bridge (B := fun x y => x ∈ A.final ∧ y = exit) hleave
        hA.target_mem hA.start_mem hexit h
    rw [(hv.eq_of_no_edge hend).1, List.append_nil]
    exact ⟨x, hx, hu⟩
  · rw [← List.append_nil w]
    exact (h.mono fun e he => (hedge e).mpr (Or.inr he)).append
      (.silent ((hedge _).mpr (Or.inl ⟨q, hq, rfl⟩)) (.refl _))

/-- **A fragment spells what its automaton accepts.** -/
theorem spells_fragment_iff (hA : A.WellFormed) {offset : State}
    (hfit : offset.toNat + A.fragmentSize ≤ UInt32.size) {w : List α} :
    (A.fragment offset).Spells w ↔ A.Accepts w := by
  have hfit' := fit_size hfit
  rw [← accepts_rename_iff hA (separates_numbering hfit')]
  show _ ↔ (A.packed offset).Accepts w
  by_cases h : A.final.size = 1
  · -- the exit is the accepting state, so the fragment is the automaton
    rw [← Fragment.accepts_toNFA_iff (S := A.alphabet),
      toNFA_fragment hA hfit' h]
  · -- the exit is the first id behind the numbers, so it is none of them
    rw [fragment_eq hA hfit' h, Fragment.Spells]
    refine path_linkAll_iff (A := A.packed offset) (wellFormed_rename hA _) ?_
      rfl
    rw [fragmentSize, if_neg h] at hfit
    show _ ∉ (A.packed offset).states
    rw [states_packed]
    exact not_mem_idsFrom (Nat.le_refl _) hfit

/-! ## One accepting state -/

theorem size_final_funnel (A : NFA α) : A.funnel.final.size = 1 :=
  (A.fragment 0).size_final_toNFA A.alphabet

/-- **Collapsing the accepting states into one** changes nothing that is
accepted. -/
theorem accepts_funnel_iff (hA : A.WellFormed)
    (hfit : A.fragmentSize ≤ UInt32.size) {w : List α} :
    A.funnel.Accepts w ↔ A.Accepts w := by
  unfold funnel
  rw [Fragment.accepts_toNFA_iff, spells_fragment_iff hA (fit_zero hfit)]

/-! ## Two fragments in a row of ids -/

section Pair

variable (hA : A.WellFormed) (hB : B.WellFormed)
  (hfit : A.fragmentSize + B.fragmentSize ≤ UInt32.size)
include hA hB hfit

/-- The right fragment begins where the left one ends. -/
theorem toNat_size_left :
    (UInt32.ofNat (A.fragment 0).size).toNat = A.fragmentSize := by
  have hpos := Nat.lt_of_lt_of_le (size_pos hB) B.size_le_fragmentSize
  rw [size_fragment hA (fit_left hfit)]
  exact UInt32.toNat_ofNat_of_lt' (by omega)

/-- There is room for the right fragment. -/
theorem fit_right :
    (UInt32.ofNat (A.fragment 0).size).toNat + B.fragmentSize
      ≤ UInt32.size := by
  rw [toNat_size_left hA hB hfit]
  exact hfit

/-- **The two fragments fill an interval** from zero on. -/
theorem states_pair :
    (A.fragment 0).states
        ∪ (B.fragment (UInt32.ofNat (A.fragment 0).size)).states
      = idsFrom 0 (A.fragmentSize + B.fragmentSize) := by
  rw [states_fragment hB (fit_right hA hB hfit),
    states_fragment hA (fit_left hfit),
    size_fragment hA (fit_left hfit), ← idsFrom_union, UInt32.zero_add]

/-- **The two fragments have no state in common.** -/
theorem disjoint_pair : ∀ q ∈ (A.fragment 0).states,
    q ∉ (B.fragment (UInt32.ofNat (A.fragment 0).size)).states := by
  intro q hq
  rw [states_fragment hA (fit_left hfit),
    mem_idsFrom_iff (fit_left hfit)] at hq
  rw [states_fragment hB (fit_right hA hB hfit),
    mem_idsFrom_iff (fit_right hA hB hfit), toNat_size_left hA hB hfit]
  rw [UInt32.toNat_zero] at hq
  omega

/-- A state behind the interval is none of the fragments'. -/
theorem not_mem_pair {i : Nat} (hi : A.fragmentSize + B.fragmentSize ≤ i)
    (hlt : i < UInt32.size) : UInt32.ofNat i ∉ (A.fragment 0).states ∧
      UInt32.ofNat i
        ∉ (B.fragment (UInt32.ofNat (A.fragment 0).size)).states := by
  have h : (0 : State) + UInt32.ofNat i
      ∉ idsFrom 0 (A.fragmentSize + B.fragmentSize) :=
    not_mem_idsFrom hi (by rwa [UInt32.toNat_zero, Nat.zero_add])
  rw [← states_pair hA hB hfit, UInt32.zero_add,
    Std.ExtTreeSet.mem_union_iff, not_or] at h
  exact h

end Pair

/-! ## One after the other -/

theorem states_sequence (hA : A.WellFormed) (hB : B.WellFormed)
    (hfit : A.fragmentSize + B.fragmentSize ≤ UInt32.size) :
    (A.sequence B).states = idsFrom 0 (A.fragmentSize + B.fragmentSize) :=
  states_pair hA hB hfit

theorem size_final_sequence (A B : NFA α) : (A.sequence B).final.size = 1 :=
  OrdSet.size_ofList_of_nodup (List.nodup_singleton _)

/-- **A sequence accepts a word of the one and then one of the other.** -/
theorem accepts_sequence_iff (hA : A.WellFormed) (hB : B.WellFormed)
    (hfit : A.fragmentSize + B.fragmentSize ≤ UInt32.size) {w : List α} :
    (A.sequence B).Accepts w ↔
      ∃ u v, w = u ++ v ∧ A.Accepts u ∧ B.Accepts v := by
  have hpath := Fragment.path_link_iff (N := A.sequence B) (w := w)
    (wellFormed_fragment hA 0) (wellFormed_fragment hB _)
    (disjoint_pair hA hB hfit) (fun e => by
      unfold sequence
      simp only [EdgeSet.mem_link, EdgeSet.mem_union])
  simp only [spells_fragment_iff hA (fit_left hfit),
    spells_fragment_iff hB (fit_right hA hB hfit)] at hpath
  rw [← hpath]
  exact accepts_iff_path rfl

/-! ## The one or the other -/

/-- A choice is two fragments side by side. -/
theorem isFork_choice (A B : NFA α) : Fragment.IsFork (A.choice B)
    (A.fragment 0) (B.fragment (UInt32.ofNat (A.fragment 0).size))
    (A.choice B).start ((A.choice B).start + 1) := by
  intro e
  unfold choice
  simp only [EdgeSet.mem_link, EdgeSet.mem_union]

section Choice

variable (hA : A.WellFormed) (hB : B.WellFormed)
  (hfit : A.fragmentSize + B.fragmentSize + 2 ≤ UInt32.size)
include hA hB hfit

/-- The start of a choice is the first id behind its fragments. -/
theorem start_choice : (A.choice B).start
    = UInt32.ofNat (A.fragmentSize + B.fragmentSize) := by
  have hfit' : A.fragmentSize + B.fragmentSize ≤ UInt32.size := by omega
  show UInt32.ofNat ((A.fragment 0).size + (B.fragment _).size) = _
  rw [size_fragment hB (fit_right hA hB hfit'),
    size_fragment hA (fit_left hfit')]

/-- The accepting state of a choice is the second one. -/
theorem start_choice_add_one : (A.choice B).start + 1
    = UInt32.ofNat (A.fragmentSize + B.fragmentSize + 1) := by
  rw [start_choice hA hB hfit, UInt32.ofNat_add _ 1]
  rfl

theorem start_choice_ne : (A.choice B).start ≠ (A.choice B).start + 1 := by
  rw [start_choice_add_one hA hB hfit, start_choice hA hB hfit]
  exact ofNat_ne_ofNat_succ (by omega)

theorem states_choice :
    (A.choice B).states = idsFrom 0 (A.fragmentSize + B.fragmentSize + 2) := by
  have hfit' : A.fragmentSize + B.fragmentSize ≤ UInt32.size := by omega
  show ((_ ∪ _ : States).insert (A.choice B).start).insert
    ((A.choice B).start + 1) = _
  rw [states_pair hA hB hfit', start_choice_add_one hA hB hfit,
    start_choice hA hB hfit, ← UInt32.zero_add (UInt32.ofNat _),
    insert_idsFrom, ← UInt32.zero_add (UInt32.ofNat (_ + 1)), insert_idsFrom]

/-- **A choice accepts what the one or the other accepts.** -/
theorem accepts_choice_iff {w : List α} :
    (A.choice B).Accepts w ↔ A.Accepts w ∨ B.Accepts w := by
  have hfit' : A.fragmentSize + B.fragmentSize ≤ UInt32.size := by omega
  have hstart := not_mem_pair hA hB hfit' (Nat.le_refl _) (by omega)
  have haccept := not_mem_pair hA hB hfit' (Nat.le_add_right _ 1) (by omega)
  rw [← start_choice hA hB hfit] at hstart
  rw [← start_choice_add_one hA hB hfit] at haccept
  have hne := start_choice_ne hA hB hfit
  have hpath := Fragment.path_fork_iff (w := w) (isFork_choice A B)
    (wellFormed_fragment hA 0) (wellFormed_fragment hB _)
    (disjoint_pair hA hB hfit') hstart haccept hne
  simp only [spells_fragment_iff hA (fit_left hfit'),
    spells_fragment_iff hB (fit_right hA hB hfit')] at hpath
  rw [← hpath]
  exact accepts_iff_path rfl

end Choice

theorem size_final_choice (A B : NFA α) : (A.choice B).final.size = 1 :=
  OrdSet.size_ofList_of_nodup (List.nodup_singleton _)

/-! ## Any number of times -/

/-- A star is a fragment that may be gone through again. -/
theorem isLoop_star (A : NFA α) : Fragment.IsLoop A.star (A.fragment 0)
    A.star.start (A.star.start + 1) := by
  intro e
  unfold star
  simp only [EdgeSet.mem_link]

section Star

variable (hA : A.WellFormed) (hfit : A.fragmentSize + 2 ≤ UInt32.size)
include hA hfit

/-- The start of a star is the first id behind its fragment. -/
theorem start_star : A.star.start = UInt32.ofNat A.fragmentSize := by
  show UInt32.ofNat (A.fragment 0).size = _
  rw [size_fragment hA (fit_left hfit)]

/-- The accepting state of a star is the second one. -/
theorem start_star_add_one :
    A.star.start + 1 = UInt32.ofNat (A.fragmentSize + 1) := by
  rw [start_star hA hfit, UInt32.ofNat_add _ 1]
  rfl

theorem start_star_ne : A.star.start ≠ A.star.start + 1 := by
  rw [start_star_add_one hA hfit, start_star hA hfit]
  exact ofNat_ne_ofNat_succ (by omega)

theorem states_star : A.star.states = idsFrom 0 (A.fragmentSize + 2) := by
  show ((A.fragment 0).states.insert A.star.start).insert
    (A.star.start + 1) = _
  rw [states_fragment hA (fit_left hfit), start_star_add_one hA hfit,
    start_star hA hfit, ← UInt32.zero_add (UInt32.ofNat _), insert_idsFrom,
    ← UInt32.zero_add (UInt32.ofNat (_ + 1)), insert_idsFrom]

/-- **A star accepts any number of words in a row.** -/
theorem accepts_star_iff {w : List α} :
    A.star.Accepts w ↔
      ∃ ws : List (List α), w = ws.flatten ∧ ∀ u ∈ ws, A.Accepts u := by
  have hstart := not_mem_fragment hA (Nat.le_refl _) (by omega)
  have haccept := not_mem_fragment hA (Nat.le_add_right _ 1) (by omega)
  have hne := start_star_ne hA hfit
  rw [← start_star hA hfit] at hstart
  rw [← start_star_add_one hA hfit] at haccept
  have hpath := Fragment.path_loop_iff (w := w) (isLoop_star A)
    (wellFormed_fragment hA 0) hstart haccept hne
  simp only [spells_fragment_iff hA (fit_left hfit)] at hpath
  rw [← hpath]
  exact accepts_iff_path rfl

end Star

theorem size_final_star (A : NFA α) : A.star.final.size = 1 :=
  OrdSet.size_ofList_of_nodup (List.nodup_singleton _)

end Recognizer.NFA
