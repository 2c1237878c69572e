import Recognizer.Proofs.Answers
import Recognizer.Proofs.Assembly

/-!
# How combined automata are laid out

A combined automaton holds copies of its operands, a few fresh states, and
silent edges between them. A `Plan` lists these, one plan for each operator, and
`Plan.Builds` says that an automaton is laid out like it: it has exactly the
states and the edges of the plan, and no two things of the plan are the same
state.

Every operator follows its plan, and put together step by step it never
comes to an id that there is not (`NFA.operators_follow_plans`).
-/

namespace Recognizer

variable {α : Type} [LinearOrd α]

/-- **What a combined automaton consists of.** -/
structure Plan (α : Type) [LinearOrd α] where
  copies : List (Copy α)
  /-- The states that belong to no copy. -/
  fresh : List State
  /-- The silent edges that belong to no copy, each from one state to
  another. -/
  links : List (State × State)
  start : State
  accept : State

/-- **An automaton laid out like a plan**, with so many states. -/
structure Plan.Builds (P : Plan α) (n : Nat) (N : NFA α) : Prop where
  size_eq : N.size = n
  /-- The ids are those from zero on. -/
  mem_states_iff : ∀ p, p ∈ N.states ↔ p.toNat < n
  size_final : N.final.size = 1
  start_eq : N.start = P.start
  final_eq : N.final = OrdSet.ofList [P.accept]
  /-- No state of an operand falls together with another one. -/
  faithful : ∀ C ∈ P.copies, C.Faithful
  disjoint : P.copies.Pairwise fun C D => ∀ p, C.Owns p → ¬ D.Owns p
  nodup_fresh : P.fresh.Nodup
  not_owns_fresh : ∀ p ∈ P.fresh, ∀ C ∈ P.copies, ¬ C.Owns p
  /-- There are no states but those of the copies and the fresh ones. -/
  owns_or_fresh : ∀ p, p ∈ N.states ↔
    (∃ C ∈ P.copies, C.Owns p) ∨ p ∈ P.fresh
  mem_edges_iff : ∀ e, e ∈ N.edges ↔ (∃ C ∈ P.copies, C.HasEdge e) ∨
    ∃ l ∈ P.links, e = ⟨l.1, .silent, l.2⟩

namespace NFA

variable {A B : NFA α}

/-! ## The plans -/

/-- A copy by itself. -/
def funnelPlan (A : NFA α) : Plan α :=
  let C := A.copy 0
  ⟨[C], [], [], C.entry, C.exit⟩

/-- Two copies, from the exit of the one to the entry of the other. -/
def sequencePlan (A B : NFA α) : Plan α :=
  let C := A.copy 0
  let D := B.copy (UInt32.ofNat A.fragmentSize)
  ⟨[C, D], [], [(C.exit, D.entry)], C.entry, D.exit⟩

/-- Two copies side by side, between a start and an accepting state. -/
def choicePlan (A B : NFA α) : Plan α :=
  let C := A.copy 0
  let D := B.copy (UInt32.ofNat A.fragmentSize)
  let start := UInt32.ofNat (A.fragmentSize + B.fragmentSize)
  let accept := UInt32.ofNat (A.fragmentSize + B.fragmentSize + 1)
  ⟨[C, D], [start, accept],
    [(start, C.entry), (start, D.entry), (C.exit, accept), (D.exit, accept)],
    start, accept⟩

/-- A copy that may be passed by and gone through again. -/
def starPlan (A : NFA α) : Plan α :=
  let C := A.copy 0
  let start := UInt32.ofNat A.fragmentSize
  let accept := UInt32.ofNat (A.fragmentSize + 1)
  ⟨[C], [start, accept],
    [(start, C.entry), (start, accept), (C.exit, C.entry), (C.exit, accept)],
    start, accept⟩

/-! ## The operators follow them -/

/-- The ids from zero on, as many as there are states. -/
theorem size_eq_and_mem_states_iff {n : Nat} (hn : n ≤ UInt32.size)
    (hstates : A.states = idsFrom 0 n) :
    A.size = n ∧ ∀ p, p ∈ A.states ↔ p.toNat < n := by
  refine ⟨by rw [size, hstates, size_idsFrom (fit_zero hn)], fun p => ?_⟩
  rw [hstates, mem_idsFrom_iff (fit_zero hn), UInt32.toNat_zero]
  omega

section Single

variable (hA : A.WellFormed)
include hA

theorem builds_funnel (hfit : A.fragmentSize ≤ UInt32.size) :
    A.funnelPlan.Builds A.fragmentSize A.funnel := by
  have hcopy := fit_zero hfit
  have hsize := fit_size hcopy
  obtain ⟨hn, hmem⟩ := size_eq_and_mem_states_iff hfit (states_funnel hA hfit)
  refine ⟨hn, hmem, size_final_funnel A, entry_fragment A 0, rfl,
    ?_, List.pairwise_singleton _ _, List.nodup_nil, nofun, fun p => ?_,
    fun e => ?_⟩
  · intro C hC
    rw [List.mem_singleton.mp hC]
    exact faithful_copy hA hcopy
  · simp only [funnelPlan, List.mem_singleton, exists_eq_left,
      owns_copy_iff hA hcopy, List.not_mem_nil, or_false]
    exact Iff.rfl
  · simp only [funnelPlan, List.mem_singleton, exists_eq_left,
      hasEdge_copy_iff hA hsize, List.not_mem_nil, false_and, exists_false,
      or_false]
    exact Iff.rfl

theorem builds_star (hfit : A.fragmentSize + 2 ≤ UInt32.size) :
    A.starPlan.Builds (A.fragmentSize + 2) A.star := by
  have hcopy := fit_left hfit
  have hsize := fit_size hcopy
  have hstart := start_star hA hfit
  have haccept := start_star_add_one hA hfit
  obtain ⟨hn, hmem⟩ := size_eq_and_mem_states_iff hfit (states_star hA hfit)
  refine ⟨hn, hmem, size_final_star A, hstart, ?_, ?_,
    List.pairwise_singleton _ _, by simp [starPlan], ?_, fun p => ?_,
    fun e => ?_⟩
  · rw [starPlan, ← haccept]
    rfl
  · intro C hC
    rw [List.mem_singleton.mp hC]
    exact faithful_copy hA hcopy
  · intro p hp C hC
    rw [List.mem_singleton.mp hC, owns_copy_iff hA hcopy]
    rcases List.mem_pair.mp hp with rfl | rfl
    · exact not_mem_fragment hA (Nat.le_refl _) (by omega)
    · exact not_mem_fragment hA (Nat.le_add_right _ 1) (by omega)
  · simp only [starPlan, List.mem_singleton, exists_eq_left,
      owns_copy_iff hA hcopy, List.mem_pair, ← hstart, ← haccept, star,
      OrdSet.mem_insert]
    grind
  · rw [isLoop_star A e, ← hasEdge_copy_iff hA hsize, entry_fragment]
    simp only [starPlan, exists_eq_left, ← hstart, ← haccept, List.mem_cons,
      List.not_mem_nil, or_false, exists_eq_or_imp, exit_copy]
    grind

end Single

/-- The second copy begins where the first one ends. -/
theorem copy_right (hA : A.WellFormed)
    (hfit : A.fragmentSize + B.fragmentSize ≤ UInt32.size) :
    B.copy (UInt32.ofNat A.fragmentSize)
      = B.copy (UInt32.ofNat (A.fragment 0).size) := by
  rw [size_fragment hA (fit_left hfit)]

section Pair

variable (hA : A.WellFormed) (hB : B.WellFormed)
  (hfit : A.fragmentSize + B.fragmentSize ≤ UInt32.size)
include hA hB hfit

/-- Neither of two copies in a row loses a state. -/
theorem faithful_pair :
    ∀ C ∈ [A.copy 0, B.copy (UInt32.ofNat (A.fragment 0).size)],
      C.Faithful := by
  intro C hC
  rcases List.mem_pair.mp hC with rfl | rfl
  · exact faithful_copy hA (fit_left hfit)
  · exact faithful_copy hB (fit_right hA hB hfit)

/-- No state belongs to both of two copies in a row. -/
theorem pairwise_copies :
    [A.copy 0, B.copy (UInt32.ofNat (A.fragment 0).size)].Pairwise
      fun C D => ∀ p, C.Owns p → ¬ D.Owns p := by
  rw [List.pairwise_pair]
  intro p
  rw [owns_copy_iff hA (fit_left hfit), owns_copy_iff hB (fit_right hA hB hfit)]
  exact disjoint_pair hA hB hfit p

theorem builds_sequence :
    (A.sequencePlan B).Builds (A.fragmentSize + B.fragmentSize)
      (A.sequence B) := by
  have hleft := fit_left hfit
  have hright := fit_right hA hB hfit
  obtain ⟨hn, hmem⟩ :=
    size_eq_and_mem_states_iff hfit (states_sequence hA hB hfit)
  unfold sequencePlan
  rw [copy_right hA hfit]
  refine ⟨hn, hmem, size_final_sequence A B, entry_fragment A 0, rfl,
    faithful_pair hA hB hfit, pairwise_copies hA hB hfit, List.nodup_nil, nofun,
    fun p => ?_, fun e => ?_⟩
  · simp only [List.mem_pair, exists_eq_or_imp, exists_eq_left,
      owns_copy_iff hA hleft, owns_copy_iff hB hright, List.not_mem_nil,
      or_false, sequence, Std.ExtTreeSet.mem_union_iff]
  · simp only [List.mem_pair, exists_eq_or_imp, exists_eq_left,
      hasEdge_copy_iff hA (fit_size hleft),
      hasEdge_copy_iff hB (fit_size hright),
      List.mem_singleton, sequence, EdgeSet.mem_link, EdgeSet.mem_union,
      entry_fragment, exit_copy]
    grind

end Pair

section Choice

variable (hA : A.WellFormed) (hB : B.WellFormed)
  (hfit : A.fragmentSize + B.fragmentSize + 2 ≤ UInt32.size)
include hA hB hfit

theorem builds_choice :
    (A.choicePlan B).Builds (A.fragmentSize + B.fragmentSize + 2)
      (A.choice B) := by
  have hfit' : A.fragmentSize + B.fragmentSize ≤ UInt32.size := by omega
  have hleft := fit_left hfit'
  have hright := fit_right hA hB hfit'
  have hstart := start_choice hA hB hfit
  have haccept := start_choice_add_one hA hB hfit
  obtain ⟨hn, hmem⟩ :=
    size_eq_and_mem_states_iff hfit (states_choice hA hB hfit)
  unfold choicePlan
  rw [copy_right hA hfit']
  refine ⟨hn, hmem, size_final_choice A B, hstart, ?_,
    faithful_pair hA hB hfit', pairwise_copies hA hB hfit', by simp, ?_,
    fun p => ?_, fun e => ?_⟩
  · rw [← haccept]
    rfl
  · intro p hp C hC
    have hout : p ∉ (A.fragment 0).states ∧
        p ∉ (B.fragment (UInt32.ofNat (A.fragment 0).size)).states := by
      rcases List.mem_pair.mp hp with rfl | rfl
      · exact not_mem_pair hA hB hfit' (Nat.le_refl _) (by omega)
      · exact not_mem_pair hA hB hfit' (Nat.le_add_right _ 1) (by omega)
    rcases List.mem_pair.mp hC with rfl | rfl
    · rw [owns_copy_iff hA hleft]
      exact hout.1
    · rw [owns_copy_iff hB hright]
      exact hout.2
  · simp only [List.mem_pair, exists_eq_or_imp, exists_eq_left,
      owns_copy_iff hA hleft, owns_copy_iff hB hright, ← hstart, ← haccept,
      choice, OrdSet.mem_insert, Std.ExtTreeSet.mem_union_iff]
    grind
  · rw [isFork_choice A B e, ← hasEdge_copy_iff hA (fit_size hleft),
      ← hasEdge_copy_iff hB (fit_size hright), entry_fragment,
      entry_fragment]
    simp only [List.mem_cons, List.not_mem_nil, or_false, exists_eq_or_imp,
      exists_eq_left, ← hstart, ← haccept, exit_copy]
    grind

end Choice

/-- **No state is lost, and no id is missing.** Whenever there are as many ids
as the combined automaton has states, it is put together step by step without
a fault, and it is laid out like the plan of its operator. -/
theorem operators_follow_plans (hA : A.WellFormed) (hB : B.WellFormed) :
    (A.fragmentSize ≤ UInt32.size →
      Stepwise.funnel A = .ok A.funnel ∧
        A.funnelPlan.Builds A.fragmentSize A.funnel) ∧
    (A.fragmentSize + B.fragmentSize ≤ UInt32.size →
      Stepwise.sequence A B = .ok (A.sequence B) ∧
        (A.sequencePlan B).Builds (A.fragmentSize + B.fragmentSize)
          (A.sequence B)) ∧
    (A.fragmentSize + B.fragmentSize + 2 ≤ UInt32.size →
      Stepwise.choice A B = .ok (A.choice B) ∧
        (A.choicePlan B).Builds (A.fragmentSize + B.fragmentSize + 2)
          (A.choice B)) ∧
    (A.fragmentSize + 2 ≤ UInt32.size →
      Stepwise.star A = .ok A.star ∧
        A.starPlan.Builds (A.fragmentSize + 2) A.star) :=
  ⟨fun hfit => ⟨Stepwise.funnel_eq_ok hA hfit, builds_funnel hA hfit⟩,
    fun hfit =>
      ⟨Stepwise.sequence_eq_ok hA hB hfit, builds_sequence hA hB hfit⟩,
    fun hfit => ⟨Stepwise.choice_eq_ok hA hB hfit, builds_choice hA hB hfit⟩,
    fun hfit => ⟨Stepwise.star_eq_ok hA hfit, builds_star hA hfit⟩⟩

/-- Ids at the top of the range, two accepting states and one. -/
theorem operators_follow_plans_alternating_separated :
    alternating.WellFormed ∧ separated.WellFormed ∧
      (Stepwise.funnel alternating = .ok alternating.funnel ∧
        alternating.funnelPlan.Builds 3 alternating.funnel) ∧
      (Stepwise.sequence alternating separated
          = .ok (alternating.sequence separated) ∧
        (alternating.sequencePlan separated).Builds 5
          (alternating.sequence separated)) ∧
      (Stepwise.choice alternating separated
          = .ok (alternating.choice separated) ∧
        (alternating.choicePlan separated).Builds 7
          (alternating.choice separated)) ∧
      (Stepwise.star alternating = .ok alternating.star ∧
        alternating.starPlan.Builds 5 alternating.star) := by
  have hleft : alternating.fragmentSize = 3 := by decide
  have hright : separated.fragmentSize = 2 := by decide
  have hplans :=
    operators_follow_plans wellFormed_alternating wellFormed_separated
  rw [hleft, hright] at hplans
  obtain ⟨hfunnel, hsequence, hchoice, hstar⟩ := hplans
  exact ⟨wellFormed_alternating, wellFormed_separated, hfunnel (by decide),
    hsequence (by decide), hchoice (by decide), hstar (by decide)⟩

end NFA

end Recognizer
