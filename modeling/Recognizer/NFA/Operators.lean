import Recognizer.NFA.Renaming

/-!
# Combining automata

Sequence, choice and repetition of automata are built from `Fragment`s.
A fragment is an automaton with one way in and one way out, its states
numbered from an offset on, so that two fragments with offsets far
enough apart have no state in common. Combining fragments is then a
matter of a few silent edges from the exit of one to the entry of the
other.

An automaton with exactly one accepting state has its exit there. Any
other one is given a fresh exit, which all accepting states reach
silently.
-/

namespace Recognizer

/-- **A part of an automaton with one way in and one way out.** -/
structure Fragment (α : Type) [LinearOrd α] where
  entry : State
  exit : State
  states : States
  edges : EdgeSet (Label α)

namespace Fragment

variable {α : Type} [LinearOrd α]

/-- The number of states. -/
def size (F : Fragment α) : Nat := F.states.size

/-- **The parts fit together**, the symbols being those of an
alphabet. -/
structure WellFormed (S : Alphabet α) (F : Fragment α) : Prop where
  entry_mem : F.entry ∈ F.states
  exit_mem : F.exit ∈ F.states
  source_mem : ∀ e ∈ F.edges, e.source ∈ F.states
  target_mem : ∀ e ∈ F.edges, e.target ∈ F.states
  symbol_mem : ∀ e ∈ F.edges, ∀ a, e.label = .symbol a → a ∈ S

/-- The automaton that is entered at the entry and accepts at the
exit. -/
def toNFA (S : Alphabet α) (F : Fragment α) : NFA α where
  alphabet := S
  start := F.entry
  states := F.states
  final := OrdSet.ofList [F.exit]
  edges := F.edges

theorem wellFormed_toNFA {S : Alphabet α} {F : Fragment α}
    (hF : F.WellFormed S) : (F.toNFA S).WellFormed where
  start_mem := hF.entry_mem
  final_mem q hq := by
    rw [List.mem_singleton.mp (OrdSet.mem_ofList.mp hq)]
    exact hF.exit_mem
  source_mem := hF.source_mem
  target_mem := hF.target_mem
  symbol_mem := hF.symbol_mem

/-- It has one accepting state. -/
theorem size_final_toNFA (F : Fragment α) (S : Alphabet α) :
    (F.toNFA S).final.size = 1 :=
  OrdSet.size_ofList_of_nodup (List.pairwise_singleton _ _)

end Fragment

namespace EdgeSet

variable {α : Type} [LinearOrd α]

/-- One more silent edge. -/
def link (E : EdgeSet (Label α)) (q r : State) : EdgeSet (Label α) :=
  E.insert ⟨q, .silent, r⟩

@[simp] theorem mem_link {E : EdgeSet (Label α)} {q r : State}
    {e : Edge (Label α)} :
    e ∈ E.link q r ↔ e = ⟨q, .silent, r⟩ ∨ e ∈ E := mem_insert

/-- Silent edges from several states to one. -/
def linkAll (E : EdgeSet (Label α)) (qs : List State) (r : State) :
    EdgeSet (Label α) :=
  qs.foldl (fun E q => E.link q r) E

@[simp] theorem mem_linkAll {E : EdgeSet (Label α)} {qs : List State}
    {r : State} {e : Edge (Label α)} :
    e ∈ E.linkAll qs r ↔
      (∃ q ∈ qs, e = ⟨q, .silent, r⟩) ∨ e ∈ E := by
  unfold linkAll
  induction qs generalizing E with
  | nil => simp
  | cons q qs ih =>
    rw [List.foldl_cons, ih, mem_link]
    simp [or_left_comm, or_assoc]

end EdgeSet

namespace NFA

variable {α : Type} [LinearOrd α]

/-- **An automaton as a fragment**, its states numbered from an offset
on and a fresh exit, where one is needed, right after them. -/
def fragment (offset : State) (A : NFA α) : Fragment α :=
  let B := A.packed offset
  match B.final.toList with
  | [exit] => ⟨B.start, exit, B.states, B.edges⟩
  | _ =>
    let exit := offset + UInt32.ofNat A.size
    ⟨B.start, exit, B.states.insert exit,
      B.edges.linkAll B.final.toList exit⟩

theorem wellFormed_fragment {A : NFA α} (hA : A.WellFormed)
    (offset : State) : (A.fragment offset).WellFormed A.alphabet := by
  have hB : (A.packed offset).WellFormed := wellFormed_rename hA _
  have hacc : ∀ q ∈ (A.packed offset).final.toList,
      q ∈ (A.packed offset).states := fun q hq =>
    hB.final_mem q (Std.ExtTreeSet.mem_toList.mp hq)
  unfold fragment
  dsimp only
  split
  · next exit hexit =>
    exact ⟨hB.start_mem, hacc exit (by simp [hexit]), hB.source_mem,
      hB.target_mem, hB.symbol_mem⟩
  · refine ⟨OrdSet.mem_insert.mpr (Or.inr hB.start_mem),
      OrdSet.mem_insert.mpr (Or.inl rfl), fun e he => ?_, fun e he => ?_,
      fun e he a ha => ?_⟩ <;>
      rcases EdgeSet.mem_linkAll.mp he with ⟨q, hq, rfl⟩ | he
    · exact OrdSet.mem_insert.mpr (Or.inr (hacc q hq))
    · exact OrdSet.mem_insert.mpr (Or.inr (hB.source_mem e he))
    · exact OrdSet.mem_insert.mpr (Or.inl rfl)
    · exact OrdSet.mem_insert.mpr (Or.inr (hB.target_mem e he))
    · exact absurd ha nofun
    · exact hB.symbol_mem e he a ha

/-- **The same language with exactly one accepting state**, numbered
from zero on. -/
def funnel (A : NFA α) : NFA α :=
  (A.fragment 0).toNFA A.alphabet

/-- **First the one, then the other.** -/
def sequence (A B : NFA α) : NFA α :=
  let left := A.fragment 0
  let right := B.fragment (UInt32.ofNat left.size)
  { alphabet := A.alphabet ∪ B.alphabet
    start := left.entry
    states := left.states ∪ right.states
    final := OrdSet.ofList [right.exit]
    edges := (left.edges ∪ right.edges).link left.exit right.entry }

/-- **Either the one or the other.** -/
def choice (A B : NFA α) : NFA α :=
  let left := A.fragment 0
  let right := B.fragment (UInt32.ofNat left.size)
  let start := UInt32.ofNat (left.size + right.size)
  let accept := start + 1
  { alphabet := A.alphabet ∪ B.alphabet
    start := start
    states := ((left.states ∪ right.states).insert start).insert accept
    final := OrdSet.ofList [accept]
    edges := ((((left.edges ∪ right.edges).link start left.entry).link
      start right.entry).link left.exit accept).link right.exit accept }

/-- **Any number of times.** -/
def star (A : NFA α) : NFA α :=
  let inner := A.fragment 0
  let start := UInt32.ofNat inner.size
  let accept := start + 1
  { alphabet := A.alphabet
    start := start
    states := (inner.states.insert start).insert accept
    final := OrdSet.ofList [accept]
    edges := (((inner.edges.link start inner.entry).link
      start accept).link inner.exit inner.entry).link
        inner.exit accept }

/-! ## The results are well-formed -/

theorem wellFormed_funnel {A : NFA α} (hA : A.WellFormed) :
    A.funnel.WellFormed :=
  Fragment.wellFormed_toNFA (wellFormed_fragment hA 0)

theorem wellFormed_sequence {A B : NFA α} (hA : A.WellFormed)
    (hB : B.WellFormed) : (A.sequence B).WellFormed := by
  have hl := wellFormed_fragment hA 0
  have hr := wellFormed_fragment hB (UInt32.ofNat (A.fragment 0).size)
  refine ⟨?_, fun q hq => ?_, fun e he => ?_, fun e he => ?_,
    fun e he a ha => ?_⟩
  · exact Std.ExtTreeSet.mem_union_iff.mpr (Or.inl hl.entry_mem)
  · rw [List.mem_singleton.mp (OrdSet.mem_ofList.mp hq)]
    exact Std.ExtTreeSet.mem_union_iff.mpr (Or.inr hr.exit_mem)
  all_goals
    rw [sequence, EdgeSet.mem_link, EdgeSet.mem_union] at he
    rw [sequence]
    rcases he with rfl | he | he
  · exact Std.ExtTreeSet.mem_union_iff.mpr (Or.inl hl.exit_mem)
  · exact Std.ExtTreeSet.mem_union_iff.mpr (Or.inl (hl.source_mem e he))
  · exact Std.ExtTreeSet.mem_union_iff.mpr (Or.inr (hr.source_mem e he))
  · exact Std.ExtTreeSet.mem_union_iff.mpr (Or.inr hr.entry_mem)
  · exact Std.ExtTreeSet.mem_union_iff.mpr (Or.inl (hl.target_mem e he))
  · exact Std.ExtTreeSet.mem_union_iff.mpr (Or.inr (hr.target_mem e he))
  · exact absurd ha nofun
  · exact Std.ExtTreeSet.mem_union_iff.mpr (Or.inl (hl.symbol_mem e he a ha))
  · exact Std.ExtTreeSet.mem_union_iff.mpr (Or.inr (hr.symbol_mem e he a ha))

theorem wellFormed_choice {A B : NFA α} (hA : A.WellFormed)
    (hB : B.WellFormed) : (A.choice B).WellFormed := by
  have hl := wellFormed_fragment hA 0
  have hr := wellFormed_fragment hB (UInt32.ofNat (A.fragment 0).size)
  have hstates : ∀ q, q ∈ (A.choice B).states ↔
      q = (A.choice B).start + 1 ∨ q = (A.choice B).start ∨
        q ∈ (A.fragment 0).states ∨
        q ∈ (B.fragment (UInt32.ofNat (A.fragment 0).size)).states := fun q => by
    simp only [choice, OrdSet.mem_insert, Std.ExtTreeSet.mem_union_iff]
  have hedges : ∀ e, e ∈ (A.choice B).edges →
      e.source ∈ (A.choice B).states ∧
        e.target ∈ (A.choice B).states ∧
        ∀ a, e.label = .symbol a → a ∈ A.alphabet ∪ B.alphabet := by
    intro e he
    rw [hstates, hstates]
    simp only [choice, EdgeSet.mem_link, EdgeSet.mem_union] at he
    rcases he with rfl | rfl | rfl | rfl | he | he
    · exact ⟨by simp [hr.exit_mem], by simp [choice],
        Label.forall_silent_eq_symbol⟩
    · exact ⟨by simp [hl.exit_mem], by simp [choice],
        Label.forall_silent_eq_symbol⟩
    · exact ⟨by simp [choice], by simp [hr.entry_mem],
        Label.forall_silent_eq_symbol⟩
    · exact ⟨by simp [choice], by simp [hl.entry_mem],
        Label.forall_silent_eq_symbol⟩
    · exact ⟨by simp [hl.source_mem e he], by simp [hl.target_mem e he],
        fun a ha => Std.ExtTreeSet.mem_union_iff.mpr
          (Or.inl (hl.symbol_mem e he a ha))⟩
    · exact ⟨by simp [hr.source_mem e he], by simp [hr.target_mem e he],
        fun a ha => Std.ExtTreeSet.mem_union_iff.mpr
          (Or.inr (hr.symbol_mem e he a ha))⟩
  refine ⟨(hstates _).mpr (by simp), fun q hq => (hstates _).mpr ?_,
    fun e he => (hedges e he).1, fun e he => (hedges e he).2.1,
    fun e he => (hedges e he).2.2⟩
  exact Or.inl (List.mem_singleton.mp (OrdSet.mem_ofList.mp hq))

theorem wellFormed_star {A : NFA α} (hA : A.WellFormed) :
    A.star.WellFormed := by
  have hF := wellFormed_fragment hA 0
  have hstates : ∀ q, q ∈ A.star.states ↔ q = A.star.start + 1 ∨
      q = A.star.start ∨ q ∈ (A.fragment 0).states := fun q => by
    simp only [star, OrdSet.mem_insert]
  have hedges : ∀ e, e ∈ A.star.edges → e.source ∈ A.star.states ∧
      e.target ∈ A.star.states ∧
        ∀ a, e.label = .symbol a → a ∈ A.alphabet := by
    intro e he
    rw [hstates, hstates]
    simp only [star, EdgeSet.mem_link] at he
    rcases he with rfl | rfl | rfl | rfl | he
    · exact ⟨by simp [hF.exit_mem], by simp [star],
        Label.forall_silent_eq_symbol⟩
    · exact ⟨by simp [hF.exit_mem], by simp [hF.entry_mem],
        Label.forall_silent_eq_symbol⟩
    · exact ⟨by simp [star], by simp [star],
        Label.forall_silent_eq_symbol⟩
    · exact ⟨by simp [star], by simp [hF.entry_mem],
        Label.forall_silent_eq_symbol⟩
    · exact ⟨by simp [hF.source_mem e he], by simp [hF.target_mem e he],
        hF.symbol_mem e he⟩
  refine ⟨(hstates _).mpr (by simp), fun q hq => (hstates _).mpr ?_,
    fun e he => (hedges e he).1, fun e he => (hedges e he).2.1,
    fun e he => (hedges e he).2.2⟩
  exact Or.inl (List.mem_singleton.mp (OrdSet.mem_ofList.mp hq))

end NFA

end Recognizer
