import Recognizer.NFA.Assembly
import Recognizer.Proofs.Copies

/-!
# Operators put together step by step

The operators are closed forms, and the step by step constructions give the
same automata as long as there is an id for every state
(`Stepwise.funnel_eq_ok`, `Stepwise.sequence_eq_ok`, `Stepwise.choice_eq_ok`,
`Stepwise.star_eq_ok`). No count is too large for an id, no sum of ids is too
large for one, and the operands always find room behind each other.

A step of a construction replaces whatever has the ids that it uses. Each of the
lemmas below says that such a step only adds, if those ids are free, and the
fragments are intervals of ids that follow each other.
-/

namespace Recognizer

namespace NFA

variable {α : Type} [LinearOrd α] {A B : NFA α}

/-! ## The steps where nothing is replaced -/

/-- A new state replaces none if its id is free. -/
theorem addState_eq {q : State} (hq : q ∉ A.states)
    (hsource : ∀ e ∈ A.edges, e.source ∈ A.states) :
    A.addState q true = { A with
      states := A.states.insert q
      final := A.final.insert q } := by
  have hedges : (A.edges.filter fun e => e.source ≠ q) = A.edges :=
    EdgeSet.ext fun e => by
      rw [EdgeSet.mem_filter, and_iff_left_iff_imp, decide_eq_true_eq]
      exact fun he h => hq (h ▸ hsource e he)
  rw [addState, hedges]
  rfl

theorem setFinal_eq {q : State} (hq : q ∈ A.states) :
    A.setFinal q false = { A with final := A.final.erase q } := if_pos hq

theorem connect_eq {q r : State} (hq : q ∈ A.states) :
    A.connect q r = { A with edges := A.edges.link q r } := if_pos hq

@[simp] theorem states_connect (A : NFA α) (q r : State) :
    (A.connect q r).states = A.states := by
  unfold connect
  split <;> rfl

/-- **An automaton without the ids of another one loses nothing** to it. -/
theorem absorb_eq (hfinal : ∀ q ∈ A.final, q ∉ B.states)
    (hsource : ∀ e ∈ A.edges, e.source ∉ B.states) :
    A.absorb B = { A with
      states := A.states ∪ B.states
      final := A.final ∪ B.final
      edges := A.edges ∪ B.edges } := by
  have hfinal' : (A.final.filter fun q => q ∉ B.states) = A.final :=
    Std.ExtTreeSet.ext_mem fun q => by
      simpa using hfinal q
  have hedges : (A.edges.filter fun e => e.source ∉ B.states) = A.edges :=
    EdgeSet.ext fun e => by
      rw [EdgeSet.mem_filter, and_iff_left_iff_imp, decide_eq_true_eq]
      exact hsource e
  rw [absorb, hfinal', hedges]

theorem handOver_eq {qs : List State} {exit : State}
    (hqs : ∀ q ∈ qs, q ∈ A.states) :
    A.handOver qs exit = { A with
      final := qs.foldl (fun s q => s.erase q) A.final
      edges := A.edges.linkAll qs exit } := by
  induction qs generalizing A with
  | nil => rfl
  | cons q qs ih =>
    obtain ⟨hq, hqs⟩ := List.forall_mem_cons.mp hqs
    have hq' : q ∈ (A.setFinal q false).states := by
      rwa [setFinal_eq hq]
    show ((A.setFinal q false).connect q exit).handOver qs exit = _
    rw [connect_eq hq', setFinal_eq hq]
    exact ih hqs

theorem mem_foldl_erase {qs : List State} {s : States} {p : State} :
    p ∈ qs.foldl (fun s q => s.erase q) s ↔ p ∈ s ∧ p ∉ qs := by
  induction qs generalizing s with
  | nil => simp
  | cons q qs ih =>
    rw [List.foldl_cons, ih, Std.ExtTreeSet.mem_erase, ne_eq,
      LinearOrd.compare_eq_iff, List.mem_cons, not_or, eq_comm]
    tauto

/-- **A fresh state that all others hand over to** is the exit of the
funnel. -/
theorem handOver_packed (hA : A.WellFormed)
    (hfit : A.size < UInt32.size) (h : A.final.size ≠ 1) :
    ((A.packed 0).addState (UInt32.ofNat A.size) true).handOver
      (A.packed 0).final.toList (UInt32.ofNat A.size) = A.funnel := by
  have hB : (A.packed 0).WellFormed := wellFormed_rename hA _
  have hexit : UInt32.ofNat A.size ∉ (A.packed 0).states := by
    rw [states_packed, ← UInt32.zero_add (UInt32.ofNat A.size)]
    exact not_mem_idsFrom (Nat.le_refl _)
      (by rwa [UInt32.toNat_zero, Nat.zero_add])
  have haccepting : ∀ q ∈ (A.packed 0).final.toList,
      q ∈ (A.packed 0).states.insert (UInt32.ofNat A.size) := fun q hq =>
    OrdSet.mem_insert.mpr
      (Or.inr (hB.final_mem q (Std.ExtTreeSet.mem_toList.mp hq)))
  have hfinal : (A.packed 0).final.toList.foldl (fun s q => s.erase q)
      ((A.packed 0).final.insert (UInt32.ofNat A.size))
        = OrdSet.ofList [UInt32.ofNat A.size] :=
    Std.ExtTreeSet.ext_mem fun p => by
      rw [mem_foldl_erase, OrdSet.mem_insert, Std.ExtTreeSet.mem_toList,
        OrdSet.mem_ofList, List.mem_singleton]
      have hp : p = UInt32.ofNat A.size → p ∉ (A.packed 0).final := by
        rintro rfl hp
        exact hexit (hB.final_mem _ hp)
      tauto
  have hsize : (0 : State).toNat + A.size ≤ UInt32.size :=
    fit_zero (Nat.le_of_lt hfit)
  unfold NFA.funnel
  rw [addState_eq hexit hB.source_mem, handOver_eq haccepting, hfinal,
    fragment_eq hA hsize h, UInt32.zero_add]
  rfl

namespace Stepwise

/-- **Collapsing the accepting states step by step** gives the funnel. -/
theorem normalize_eq_ok (hA : A.WellFormed)
    (hfit : A.fragmentSize ≤ UInt32.size) :
    normalize A = .ok (A.funnel, (A.fragment 0).exit) := by
  have hsize := fit_size (fit_zero hfit)
  unfold normalize
  rw [checkedPack_eq_ok hsize]
  by_cases h : A.final.size = 1
  · obtain ⟨exit, hfinal, heq⟩ := exists_fragment_eq hA hsize h
    have hlist : (A.packed 0).final.toList = [exit] := by
      rw [hfinal]
      exact OrdSet.toList_eq_of_ascending (List.pairwise_singleton _ _) fun p =>
        OrdSet.mem_ofList.symm
    have hfunnel : A.funnel = A.packed 0 := toNFA_fragment hA hsize h
    simp only [bind, Except.bind, hlist, hfunnel, heq]
    rfl
  · have hlist : ∀ exit, (A.packed 0).final.toList ≠ [exit] := by
      intro exit hexit
      have hlen := congrArg List.length hexit
      rw [Std.ExtTreeSet.length_toList, packed,
        size_final_rename hA (separates_numbering hsize)] at hlen
      exact h hlen
    rw [fragmentSize, if_neg h] at hfit
    have hid : checkedId (A.packed 0).size = .ok (UInt32.ofNat A.size) := by
      rw [NFA.size, states_packed, size_idsFrom hsize]
      exact checkedId_eq_ok hfit
    rw [exit_fragment_eq hA hsize h, UInt32.zero_add,
      ← handOver_packed hA hfit h]
    simp only [bind, Except.bind, hid]
    rfl

theorem funnel_eq_ok (hA : A.WellFormed)
    (hfit : A.fragmentSize ≤ UInt32.size) : funnel A = .ok A.funnel := by
  unfold funnel
  rw [normalize_eq_ok hA hfit]
  rfl

end Stepwise

/-- A start and an accepting state with nothing between them. -/
theorem addState_point (S : Alphabet α) {start accept : State}
    (hne : start ≠ accept) :
    (point S start false).addState accept true
      = ⟨S, start, (OrdSet.ofList [start]).insert accept,
          OrdSet.ofList [accept], ∅⟩ := by
  rw [addState_eq]
  · rfl
  · rw [point, OrdSet.mem_ofList, List.mem_singleton]
    exact hne.symm
  · exact fun e he => absurd he EdgeSet.not_mem_empty

/-- A fragment no longer accepts once its exit does not. -/
theorem setFinal_toNFA {S : Alphabet α} {F : Fragment α}
    (hF : F.exit ∈ F.states) :
    (F.toNFA S).setFinal F.exit false = { F.toNFA S with final := ∅ } := by
  have hfinal : (OrdSet.ofList [F.exit]).erase F.exit = ∅ :=
    Std.ExtTreeSet.ext_mem fun p => by
      rw [Std.ExtTreeSet.mem_erase, ne_eq, LinearOrd.compare_eq_iff,
        OrdSet.mem_ofList, List.mem_singleton]
      exact ⟨fun h => absurd h.2.symm h.1,
        fun h => absurd h Std.ExtTreeSet.not_mem_empty⟩
  rw [setFinal_eq hF, ← hfinal]
  rfl

/-- **A fragment that no longer accepts is added** to what is there. -/
theorem absorb_toNFA {S : Alphabet α} {N : NFA α} {F : Fragment α}
    (hF : F.exit ∈ F.states) (hfinal : ∀ q ∈ N.final, q ∉ F.states)
    (hsource : ∀ e ∈ N.edges, e.source ∉ F.states) :
    N.absorb ((F.toNFA S).setFinal F.exit false) = { N with
      states := N.states ∪ F.states
      edges := N.edges ∪ F.edges } := by
  have hunion : N.final ∪ (∅ : States) = N.final :=
    Std.ExtTreeSet.ext_mem fun q => by simp
  rw [setFinal_toNFA hF, absorb_eq hfinal hsource]
  show NFA.mk _ _ _ (N.final ∪ (∅ : States)) _ = _
  rw [hunion]
  rfl

theorem insertBetween_eq {S : Alphabet α} {N : NFA α} {F : Fragment α}
    {start accept : State} (hstart : start ∈ N.states) (hF : F.exit ∈ F.states)
    (hfinal : ∀ q ∈ N.final, q ∉ F.states)
    (hsource : ∀ e ∈ N.edges, e.source ∉ F.states) :
    Stepwise.insertBetween start accept N (F.toNFA S) F.exit
      = { N with
          states := N.states ∪ F.states
          edges := ((N.edges ∪ F.edges).link start F.entry).link
            F.exit accept } := by
  have hstart' : start ∈ N.states ∪ F.states :=
    Std.ExtTreeSet.mem_union_iff.mpr (Or.inl hstart)
  have hexit' : F.exit ∈ N.states ∪ F.states :=
    Std.ExtTreeSet.mem_union_iff.mpr (Or.inr hF)
  unfold Stepwise.insertBetween
  rw [absorb_toNFA hF hfinal hsource, connect_eq (by rwa [states_connect]),
    connect_eq hstart']
  rfl

/-- **Two fragments between a start and an accepting state**, with no state in
common. -/
theorem insertBetween_pair {S T U : Alphabet α} {F G : Fragment α}
    {start accept : State} (hFsource : ∀ e ∈ F.edges, e.source ∈ F.states)
    (hF : F.exit ∈ F.states) (hG : G.exit ∈ G.states)
    (hdisjoint : ∀ q ∈ F.states, q ∉ G.states)
    (hstart : start ∉ F.states ∧ start ∉ G.states)
    (haccept : accept ∉ F.states ∧ accept ∉ G.states)
    (hne : start ≠ accept) :
    Stepwise.insertBetween start accept
        (Stepwise.insertBetween start accept
          ((point S start false).addState accept true) (F.toNFA T) F.exit)
        (G.toNFA U) G.exit
      = { alphabet := S
          start := start
          states := ((F.states ∪ G.states).insert start).insert accept
          final := OrdSet.ofList [accept]
          edges := ((((F.edges ∪ G.edges).link start F.entry).link
            start G.entry).link F.exit accept).link G.exit accept } := by
  have hin : start ∈ (OrdSet.ofList [start]).insert accept :=
    OrdSet.mem_insert.mpr (Or.inr (OrdSet.mem_ofList.mpr List.mem_cons_self))
  have hout : ∀ q ∈ OrdSet.ofList [accept], q ∉ F.states ∧ q ∉ G.states := by
    intro q hq
    rwa [List.mem_singleton.mp (OrdSet.mem_ofList.mp hq)]
  rw [addState_point S hne, insertBetween_eq hin hF (fun q hq => (hout q hq).1)
    fun e he => absurd he EdgeSet.not_mem_empty, insertBetween_eq
      (Std.ExtTreeSet.mem_union_iff.mpr (Or.inl hin)) hG
      (fun q hq => (hout q hq).2)]
  · refine ext_mem rfl rfl (fun q => ?_) (fun q => Iff.rfl) fun e => ?_
    · simp only [Std.ExtTreeSet.mem_union_iff, OrdSet.mem_insert,
        OrdSet.mem_ofList, List.mem_singleton]
      grind
    · simp only [EdgeSet.mem_link, EdgeSet.mem_union, EdgeSet.not_mem_empty,
        false_or]
      grind
  · intro e he
    simp only [EdgeSet.mem_link, EdgeSet.mem_union, EdgeSet.not_mem_empty,
      false_or] at he
    rcases he with rfl | rfl | he
    · exact hdisjoint _ hF
    · exact hstart.2
    · exact hdisjoint _ (hFsource e he)

/-- **A fragment that may be gone through again**, between a start and an
accepting state. -/
theorem absorb_loop {S T : Alphabet α} {F : Fragment α}
    {start accept : State} (hF : F.exit ∈ F.states)
    (haccept : accept ∉ F.states) (hne : start ≠ accept) :
    ((((((point S start false).addState accept true).absorb
      ((F.toNFA T).setFinal F.exit false)).connect start F.entry).connect
        start accept).connect F.exit F.entry).connect F.exit accept
      = { alphabet := S
          start := start
          states := (F.states.insert start).insert accept
          final := OrdSet.ofList [accept]
          edges := (((F.edges.link start F.entry).link start accept).link
            F.exit F.entry).link F.exit accept } := by
  have hin : start ∈ (OrdSet.ofList [start]).insert accept ∪ F.states :=
    Std.ExtTreeSet.mem_union_iff.mpr (Or.inl (OrdSet.mem_insert.mpr
      (Or.inr (OrdSet.mem_ofList.mpr List.mem_cons_self))))
  have hexit : F.exit ∈ (OrdSet.ofList [start]).insert accept ∪ F.states :=
    Std.ExtTreeSet.mem_union_iff.mpr (Or.inr hF)
  have hout : ∀ q ∈ OrdSet.ofList [accept], q ∉ F.states := by
    intro q hq
    rwa [List.mem_singleton.mp (OrdSet.mem_ofList.mp hq)]
  rw [addState_point S hne, absorb_toNFA hF hout
    fun e he => absurd he EdgeSet.not_mem_empty,
    connect_eq (by simpa only [states_connect]),
    connect_eq (by simpa only [states_connect]),
    connect_eq (by simpa only [states_connect]), connect_eq hin]
  refine ext_mem rfl rfl (fun q => ?_) (fun q => Iff.rfl) fun e => ?_
  · simp only [Std.ExtTreeSet.mem_union_iff, OrdSet.mem_insert,
      OrdSet.mem_ofList, List.mem_singleton]
    grind
  · simp only [EdgeSet.mem_link, EdgeSet.mem_union, EdgeSet.not_mem_empty,
      false_or]

namespace Stepwise

section Pair

variable (hA : A.WellFormed) (hB : B.WellFormed)
  (hfit : A.fragmentSize + B.fragmentSize ≤ UInt32.size)
include hA hB hfit

/-- The size of the left operand is an id. -/
theorem checkedId_size_left :
    checkedId A.funnel.size = .ok (UInt32.ofNat (A.fragment 0).size) := by
  have hpos := Nat.lt_of_lt_of_le (size_pos hB) B.size_le_fragmentSize
  refine checkedId_eq_ok ?_
  rw [size_funnel hA (by omega)]
  omega

/-- The right operand has ids behind the left one. -/
theorem checkedPack_right :
    B.funnel.checkedPack (UInt32.ofNat (A.fragment 0).size)
      = .ok ((B.fragment (UInt32.ofNat (A.fragment 0).size)).toNFA
          B.alphabet) := by
  have hright := fit_right hA hB hfit
  rw [checkedPack_eq_ok, packed_funnel hB hright]
  rwa [size_funnel hB (by omega)]

/-- The exit of the right operand moves on by an id. -/
theorem checkedAdd_exit_right :
    checkedAdd (B.fragment 0).exit (UInt32.ofNat (A.fragment 0).size)
      = .ok (B.fragment (UInt32.ofNat (A.fragment 0).size)).exit := by
  have hleft := toNat_size_left hA hB hfit
  have hexit := (wellFormed_fragment hB 0).exit_mem
  have hroom := fit_size (fit_right hA hB hfit)
  rw [states_fragment hB (fit_zero (by omega)),
    mem_idsFrom_iff (fit_zero (by omega)), UInt32.toNat_zero] at hexit
  rw [checkedAdd_eq_ok (by omega), UInt32.add_comm,
    exit_fragment_eq_add hB hroom]

/-- **A sequence put together step by step.** -/
theorem sequence_eq_ok : sequence A B = .ok (A.sequence B) := by
  have hl := wellFormed_fragment hA 0
  have hr := wellFormed_fragment hB (UInt32.ofNat (A.fragment 0).size)
  have hdisjoint := disjoint_pair hA hB hfit
  unfold sequence
  rw [normalize_eq_ok hA (by omega), normalize_eq_ok hB (by omega)]
  simp only [bind, Except.bind, checkedId_size_left hA hB hfit,
    checkedPack_right hA hB hfit]
  unfold NFA.funnel
  rw [setFinal_toNFA hl.exit_mem, connect_eq hl.exit_mem, absorb_eq]
  · refine congrArg Except.ok (ext_mem rfl rfl (fun q => Iff.rfl) (fun q => ?_)
      fun e => ?_)
    · simp [NFA.sequence, Fragment.toNFA]
    · simp [NFA.sequence, Fragment.toNFA, or_assoc]
  · exact fun q hq => absurd hq Std.ExtTreeSet.not_mem_empty
  · intro e he
    rcases EdgeSet.mem_link.mp he with rfl | he
    · exact hdisjoint _ hl.exit_mem
    · exact hdisjoint _ (hl.source_mem e he)

end Pair

section Choice

variable (hA : A.WellFormed) (hB : B.WellFormed)
  (hfit : A.fragmentSize + B.fragmentSize + 2 ≤ UInt32.size)
include hA hB hfit

/-- The size of the right operand is an id. -/
theorem checkedId_size_right (S : Alphabet α) :
    checkedId ((B.fragment (UInt32.ofNat (A.fragment 0).size)).toNFA S).size
      = .ok (UInt32.ofNat B.fragmentSize) := by
  have hright := fit_right hA hB (Nat.le_trans (Nat.le_add_right _ 2) hfit)
  show checkedId (B.fragment (UInt32.ofNat (A.fragment 0).size)).size = _
  rw [size_fragment hB hright]
  exact checkedId_eq_ok (by omega)

/-- The sizes of both operands add up to the id of the start. -/
theorem checkedAdd_sizes :
    checkedAdd (UInt32.ofNat (A.fragment 0).size)
      (UInt32.ofNat B.fragmentSize) = .ok (A.choice B).start := by
  have hsize := size_fragment hA (fit_left (Nat.le_of_add_right_le hfit))
  rw [start_choice hA hB hfit, UInt32.ofNat_add, hsize]
  refine checkedAdd_eq_ok ?_
  rw [UInt32.toNat_ofNat_of_lt' (by omega),
    UInt32.toNat_ofNat_of_lt' (by omega)]
  omega

/-- An id comes after the start. -/
theorem checkedAdd_start_choice :
    checkedAdd (A.choice B).start 1 = .ok ((A.choice B).start + 1) := by
  refine checkedAdd_eq_ok ?_
  rw [start_choice hA hB hfit, UInt32.toNat_ofNat_of_lt' (by omega),
    UInt32.toNat_one]
  omega

/-- **A choice put together step by step.** -/
theorem choice_eq_ok : choice A B = .ok (A.choice B) := by
  have hfit' : A.fragmentSize + B.fragmentSize ≤ UInt32.size := by omega
  have hl := wellFormed_fragment hA 0
  have hr := wellFormed_fragment hB (UInt32.ofNat (A.fragment 0).size)
  have hstart := not_mem_pair hA hB hfit' (Nat.le_refl _) (by omega)
  have haccept := not_mem_pair hA hB hfit' (Nat.le_add_right _ 1) (by omega)
  rw [← start_choice hA hB hfit] at hstart
  rw [← start_choice_add_one hA hB hfit] at haccept
  unfold choice
  rw [normalize_eq_ok hA (by omega), normalize_eq_ok hB (by omega)]
  simp only [bind, Except.bind, checkedId_size_left hA hB hfit',
    checkedPack_right hA hB hfit', checkedAdd_exit_right hA hB hfit',
    checkedId_size_right hA hB hfit, checkedAdd_sizes hA hB hfit,
    checkedAdd_start_choice hA hB hfit]
  exact congrArg Except.ok (insertBetween_pair hl.source_mem hl.exit_mem
    hr.exit_mem (disjoint_pair hA hB hfit') hstart haccept
    (start_choice_ne hA hB hfit))

end Choice

section Star

variable (hA : A.WellFormed) (hfit : A.fragmentSize + 2 ≤ UInt32.size)
include hA hfit

/-- **A star put together step by step.** -/
theorem star_eq_ok : star A = .ok A.star := by
  have hl := wellFormed_fragment hA 0
  have hid : checkedId A.funnel.size = .ok A.star.start := by
    refine checkedId_eq_ok ?_
    rw [size_funnel hA (by omega)]
    omega
  have hnext : checkedAdd A.star.start 1 = .ok (A.star.start + 1) := by
    refine checkedAdd_eq_ok ?_
    rw [start_star hA hfit, UInt32.toNat_ofNat_of_lt' (by omega),
      UInt32.toNat_one]
    omega
  have haccept := not_mem_fragment hA (Nat.le_add_right _ 1) (by omega)
  rw [← start_star_add_one hA hfit] at haccept
  unfold star
  rw [normalize_eq_ok hA (by omega)]
  simp only [bind, Except.bind, hid, hnext]
  exact congrArg Except.ok (absorb_loop hl.exit_mem haccept
    (start_star_ne hA hfit))

end Star

end Stepwise

end NFA

end Recognizer
