import Recognizer.Proofs.Operators

/-!
# Copies of automata

An operator copies its operands into a new automaton. A `Copy` says which id
each state is given there and by which state the copy is left, and with that
which states and which edges of the new automaton belong to it. The exit of a
copy is the copy of the one accepting state. Where none or several states
accept it is a fresh state that these have silent edges to.

What a fragment holds is a faithful copy of its automaton (`NFA.owns_copy_iff`,
`NFA.hasEdge_copy_iff`, `NFA.faithful_copy`): no two states fall together, and
a fresh exit falls together with none.

A fragment may also be made in two steps, numbered from zero on first and then
once more from an offset on. Since the numbers only move on by the offset, the
copy is the same (`NFA.packed_funnel`).
-/

namespace Recognizer

variable {α : Type} [LinearOrd α]

/-- **A copy of an automaton** in another one. -/
structure Copy (α : Type) [LinearOrd α] where
  original : NFA α
  /-- The id of each state. -/
  place : State → State
  /-- The state by which the copy is left. -/
  exit : State

namespace Copy

/-- Where the start went. -/
def entry (C : Copy α) : State := C.place C.original.start

/-- **The states of a copy.** -/
def Owns (C : Copy α) (p : State) : Prop :=
  (∃ q ∈ C.original.states, C.place q = p) ∨ p = C.exit

/-- **The edges of a copy**: those of the original, and silent ones to the
exit where it is fresh. -/
def HasEdge (C : Copy α) (e : Edge (Label α)) : Prop :=
  (∃ d ∈ C.original.edges, d.mapEnds C.place = e) ∨
    (C.original.final.size ≠ 1 ∧ ∃ q ∈ C.original.final,
      e = ⟨C.place q, .silent, C.exit⟩)

/-- **No two states fall together**, and a fresh exit falls together with
none. -/
structure Faithful (C : Copy α) : Prop where
  separates : C.original.Separates C.place
  exit_eq : C.original.final.size = 1 →
    ∃ q ∈ C.original.final, C.exit = C.place q
  exit_fresh : C.original.final.size ≠ 1 →
    ∀ q ∈ C.original.states, C.place q ≠ C.exit

/-- The copy under yet other names. -/
def map (C : Copy α) (f : State → State) : Copy α :=
  ⟨C.original, fun q => f (C.place q), f C.exit⟩

variable {C D : Copy α} {e : Edge (Label α)}

theorem hasEdge_map_iff {f : State → State} :
    (C.map f).HasEdge e ↔ ∃ d, C.HasEdge d ∧ d.mapEnds f = e := by
  constructor
  · rintro (⟨d, hd, rfl⟩ | ⟨hne, q, hq, rfl⟩)
    · exact ⟨_, Or.inl ⟨d, hd, rfl⟩, rfl⟩
    · exact ⟨_, Or.inr ⟨hne, q, hq, rfl⟩, rfl⟩
  · rintro ⟨_, ⟨d, hd, rfl⟩ | ⟨hne, q, hq, rfl⟩, rfl⟩
    · exact Or.inl ⟨d, hd, rfl⟩
    · exact Or.inr ⟨hne, q, hq, rfl⟩

/-- Copies with the same names have the same edges. -/
theorem hasEdge_congr (hC : C.original.WellFormed)
    (horiginal : C.original = D.original)
    (hplace : ∀ q ∈ C.original.states, C.place q = D.place q)
    (hexit : C.exit = D.exit) : C.HasEdge e ↔ D.HasEdge e := by
  unfold HasEdge
  rw [← horiginal, ← hexit]
  refine or_congr (exists_congr fun d => and_congr_right fun hd => ?_)
    (and_congr_right fun _ => exists_congr fun q =>
      and_congr_right fun hq => ?_)
  · simp only [Edge.mapEnds, hplace _ (hC.source_mem d hd),
      hplace _ (hC.target_mem d hd)]
  · rw [hplace q (hC.final_mem q hq)]

end Copy

namespace NFA

variable {A : NFA α} {offset : State}

/-- **The copy that a fragment holds.** -/
def copy (offset : State) (A : NFA α) : Copy α :=
  ⟨A, (A.numbering offset).apply, (A.fragment offset).exit⟩

@[simp] theorem exit_copy (A : NFA α) (offset : State) :
    (A.copy offset).exit = (A.fragment offset).exit := rfl

/-! ## What a fragment holds -/

theorem entry_fragment (A : NFA α) (offset : State) :
    (A.fragment offset).entry = (A.copy offset).entry := by
  unfold fragment
  dsimp only
  split <;> rfl

/-- Where one state accepts, the exit is its copy. -/
theorem exists_exit_fragment_eq (hA : A.WellFormed)
    (hfit : offset.toNat + A.size ≤ UInt32.size) (h : A.final.size = 1) :
    ∃ q ∈ A.final, (A.fragment offset).exit = (A.numbering offset).apply q := by
  obtain ⟨exit, hfinal, heq⟩ := exists_fragment_eq hA hfit h
  have hexit : exit ∈ (A.packed offset).final := by
    rw [hfinal, OrdSet.mem_ofList]
    exact List.mem_singleton_self exit
  obtain ⟨q, hq, rfl⟩ :=
    (mem_final_rename_of_separates hA (separates_numbering hfit)).mp hexit
  exact ⟨q, hq, by rw [heq]⟩

/-- Where none or several do, it is the first id behind the copies. -/
theorem exit_fragment_eq (hA : A.WellFormed)
    (hfit : offset.toNat + A.size ≤ UInt32.size) (h : A.final.size ≠ 1) :
    (A.fragment offset).exit = offset + UInt32.ofNat A.size := by
  rw [fragment_eq hA hfit h]

/-- **The edges of a fragment** are those of the copy. -/
theorem hasEdge_copy_iff (hA : A.WellFormed)
    (hfit : offset.toNat + A.size ≤ UInt32.size) {e : Edge (Label α)} :
    (A.copy offset).HasEdge e ↔ e ∈ (A.fragment offset).edges := by
  have hsep := separates_numbering hfit
  unfold Copy.HasEdge
  by_cases h : A.final.size = 1
  · obtain ⟨exit, -, heq⟩ := exists_fragment_eq hA hfit h
    rw [heq]
    show _ ↔ e ∈ (A.packed offset).edges
    rw [packed, mem_edges_rename_of_separates hA hsep]
    simp [copy, h]
  · rw [fragment_eq hA hfit h]
    show _ ↔ e ∈ (A.packed offset).edges.linkAll _ _
    rw [EdgeSet.mem_linkAll, packed, mem_edges_rename_of_separates hA hsep,
      or_comm]
    simp [copy, h, mem_final_rename_of_separates hA hsep,
      exit_fragment_eq hA hfit h]

/-- The copy of a state is a state of the fragment. -/
theorem numbering_apply_mem (hA : A.WellFormed)
    (hfit : offset.toNat + A.fragmentSize ≤ UInt32.size) {q : State}
    (hq : q ∈ A.states) :
    (A.numbering offset).apply q ∈ (A.fragment offset).states := by
  obtain ⟨i, hi, hget⟩ := exists_getElem?_states hq
  rw [numbering_apply hget, states_fragment hA hfit, mem_idsFrom]
  exact ⟨i, Nat.lt_of_lt_of_le hi A.size_le_fragmentSize, rfl⟩

/-- **The states of a fragment** are those of the copy. -/
theorem owns_copy_iff (hA : A.WellFormed)
    (hfit : offset.toNat + A.fragmentSize ≤ UInt32.size) {p : State} :
    (A.copy offset).Owns p ↔ p ∈ (A.fragment offset).states := by
  have hsize := fit_size hfit
  constructor
  · rintro (⟨q, hq, rfl⟩ | rfl)
    · exact numbering_apply_mem hA hfit hq
    · exact (wellFormed_fragment hA offset).exit_mem
  · intro hp
    by_cases h : A.final.size = 1
    · obtain ⟨exit, -, heq⟩ := exists_fragment_eq hA hsize h
      rw [heq] at hp
      exact Or.inl (mem_states_rename.mp hp)
    · rw [fragment_eq hA hsize h] at hp
      rcases OrdSet.mem_insert.mp hp with rfl | hp
      · exact Or.inr (exit_fragment_eq hA hsize h).symm
      · exact Or.inl (mem_states_rename.mp hp)

/-- **A fragment copies faithfully.** -/
theorem faithful_copy (hA : A.WellFormed)
    (hfit : offset.toNat + A.fragmentSize ≤ UInt32.size) :
    (A.copy offset).Faithful := by
  have hsize := fit_size hfit
  refine ⟨separates_numbering hsize, exists_exit_fragment_eq hA hsize,
    fun h q hq heq => ?_⟩
  -- the copies fill an interval, and the fresh exit comes behind it
  have hcopy : (A.numbering offset).apply q ∈ idsFrom offset A.size := by
    rw [← states_packed]
    exact mem_states_rename.mpr ⟨q, hq, rfl⟩
  replace h : A.final.size ≠ 1 := h
  rw [fragmentSize, if_neg h] at hfit
  rw [show (A.numbering offset).apply q = _ from heq] at hcopy
  rw [show (A.copy offset).exit = _ from exit_fragment_eq hA hsize h] at hcopy
  exact not_mem_idsFrom (Nat.le_refl _) hfit hcopy

/-! ## A copy made in two steps -/

theorem states_funnel (hA : A.WellFormed)
    (hfit : A.fragmentSize ≤ UInt32.size) :
    A.funnel.states = idsFrom 0 A.fragmentSize :=
  states_fragment hA (fit_zero hfit)

theorem size_funnel (hA : A.WellFormed) (hfit : A.fragmentSize ≤ UInt32.size) :
    A.funnel.size = A.fragmentSize :=
  size_fragment hA (fit_zero hfit)

/-- The exit moves on by the offset. -/
theorem exit_fragment_eq_add (hA : A.WellFormed)
    (hfit : offset.toNat + A.size ≤ UInt32.size) :
    (A.fragment offset).exit = offset + (A.fragment 0).exit := by
  have hfit0 : (0 : State).toNat + A.size ≤ UInt32.size := by
    rw [UInt32.toNat_zero]
    omega
  by_cases h : A.final.size = 1
  · -- one state accepts, and either exit is its copy
    obtain ⟨q, hq, hexit⟩ := exists_exit_fragment_eq hA hfit h
    obtain ⟨r, hr, hexit0⟩ := exists_exit_fragment_eq hA hfit0 h
    obtain ⟨x, hx⟩ : ∃ x, A.final.toList = [x] := by
      rw [← List.length_eq_one_iff, Std.ExtTreeSet.length_toList, h]
    have hsame : ∀ p, p ∈ A.final → p = x := by
      intro p hp
      rw [← Std.ExtTreeSet.mem_toList, hx] at hp
      exact List.mem_singleton.mp hp
    rw [hexit, hexit0, numbering_apply_eq_add (hA.final_mem q hq), hsame q hq,
      hsame r hr]
  · rw [exit_fragment_eq hA hfit h, exit_fragment_eq hA hfit0 h,
      UInt32.zero_add]

/-- **A funnel numbered from an offset on** is the fragment at the offset. -/
theorem packed_funnel (hA : A.WellFormed)
    (hfit : offset.toNat + A.fragmentSize ≤ UInt32.size) :
    A.funnel.packed offset = (A.fragment offset).toNFA A.alphabet := by
  have hfit0 : A.fragmentSize ≤ UInt32.size := by omega
  have hsize := fit_size hfit
  have hsize0 := fit_size (fit_zero hfit0)
  have hfunnel := wellFormed_funnel hA
  have hsep : A.funnel.Separates (A.funnel.numbering offset).apply :=
    separates_numbering (by rwa [size_funnel hA hfit0])
  -- the numbers of the funnel move on, so that copies go to copies
  have hmove : ∀ p ∈ A.funnel.states,
      (A.funnel.numbering offset).apply p = offset + p := fun p hp =>
    numbering_apply_of_states_eq hfit0 (states_funnel hA hfit0) hp
  have hplace : ∀ q ∈ A.states, (A.funnel.numbering offset).apply
      ((A.numbering 0).apply q) = (A.numbering offset).apply q := by
    intro q hq
    rw [hmove _ (numbering_apply_mem hA (fit_zero hfit0) hq),
      numbering_apply_eq_add hq offset]
  have hexit : (A.funnel.numbering offset).apply (A.fragment 0).exit
      = (A.fragment offset).exit := by
    rw [hmove _ (wellFormed_fragment hA 0).exit_mem,
      exit_fragment_eq_add hA hsize]
  refine ext_mem rfl ?_ (fun p => ?_) (fun p => ?_) fun e => ?_
  · show (A.funnel.numbering offset).apply (A.fragment 0).entry
      = (A.fragment offset).entry
    rw [entry_fragment, entry_fragment]
    exact hplace _ hA.start_mem
  · rw [states_packed, size_funnel hA hfit0, ← states_fragment hA hfit]
    exact Iff.rfl
  · rw [packed, mem_final_rename_of_separates hfunnel hsep]
    simp [funnel, Fragment.toNFA, ← hexit, eq_comm]
  · rw [packed, mem_edges_rename_of_separates hfunnel hsep]
    show (∃ d ∈ (A.fragment 0).edges, _) ↔ e ∈ (A.fragment offset).edges
    simp only [← hasEdge_copy_iff hA hsize, ← hasEdge_copy_iff hA hsize0]
    rw [← Copy.hasEdge_map_iff]
    exact Copy.hasEdge_congr hA rfl hplace hexit

end NFA

end Recognizer
