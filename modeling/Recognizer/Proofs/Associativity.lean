import Recognizer.Proofs.Layout
import Recognizer.Proofs.Packing

/-!
# Sequences of automata are associative

Three automata in sequence are the same automaton whichever two of them are put
together first, down to the ids of the states (`NFA.sequence_assoc`). What is
put together first is numbered once more and moved behind what stands before
it, so that the two sides are renamed a different number of times.

Fragments show that this comes to the same. Fragments in a row are associative
at once, for their states and edges are unions, and renaming them commutes with
everything (`Fragment.append_assoc`, `Fragment.map_append`). The fragment of an
automaton at an offset is the one at zero, moved on by the offset
(`NFA.map_fragment`). And an automaton that is a fragment already, with its
states numbered from zero on, is its own fragment, so that the fragment of a
sequence is made of the fragments of its parts (`NFA.fragment_sequence`).
-/

namespace Recognizer

variable {α : Type} [LinearOrd α] {S : Alphabet α}

namespace Fragment

variable {F G H : Fragment α} {f g : State → State}

/-- Two fragments with the same parts are the same. -/
theorem ext_mem (hentry : F.entry = G.entry) (hexit : F.exit = G.exit)
    (hstates : ∀ q, q ∈ F.states ↔ q ∈ G.states)
    (hedges : ∀ e, e ∈ F.edges ↔ e ∈ G.edges) : F = G := by
  obtain ⟨p, q, Q, E⟩ := F
  obtain ⟨r, s, R, D⟩ := G
  obtain rfl : p = r := hentry
  obtain rfl : q = s := hexit
  obtain rfl : Q = R := Std.ExtTreeSet.ext_mem hstates
  obtain rfl : E = D := EdgeSet.ext hedges
  rfl

/-! ## Fragments in a row -/

/-- **One fragment after the other**, the exit of the one leading to the entry
of the other. -/
def append (F G : Fragment α) : Fragment α :=
  ⟨F.entry, G.exit, F.states ∪ G.states,
    (F.edges ∪ G.edges).link F.exit G.entry⟩

/-- The fragment under other names. -/
def map (f : State → State) (F : Fragment α) : Fragment α :=
  ⟨f F.entry, f F.exit, F.states.image f, F.edges.image (Edge.mapEnds f)⟩

theorem append_assoc (F G H : Fragment α) :
    (F.append G).append H = F.append (G.append H) := by
  refine ext_mem rfl rfl (fun q => ?_) fun e => ?_
  · simp only [append, Std.ExtTreeSet.mem_union_iff, or_assoc]
  · simp only [append, EdgeSet.mem_link, EdgeSet.mem_union]
    tauto

theorem map_append (f : State → State) (F G : Fragment α) :
    (F.append G).map f = (F.map f).append (G.map f) := by
  refine ext_mem rfl rfl (fun q => ?_) fun e => ?_
  · simp only [map, append, OrdSet.mem_image, Std.ExtTreeSet.mem_union_iff]
    simp only [or_and_right, exists_or]
  · simp only [map, append, EdgeSet.mem_image, EdgeSet.mem_link,
      EdgeSet.mem_union]
    simp only [or_and_right, exists_or, exists_eq_left, Edge.mapEnds, eq_comm]

theorem map_map (f g : State → State) (F : Fragment α) :
    (F.map f).map g = F.map (g ∘ f) := by
  refine ext_mem rfl rfl (fun q => ?_) fun e => ?_
  · simp [map]
  · simp [map, Edge.mapEnds]

/-! ## Fragments as automata -/

/-- A fragment is known by its automaton. -/
theorem toNFA_inj (h : F.toNFA S = G.toNFA S) : F = G := by
  have hexit : F.exit ∈ (G.toNFA S).final :=
    h ▸ OrdSet.mem_ofList.mpr (List.mem_singleton_self F.exit)
  obtain ⟨p, q, Q, E⟩ := F
  obtain ⟨r, s, R, D⟩ := G
  obtain ⟨-, rfl, rfl, -, rfl⟩ := NFA.mk.inj h
  obtain rfl : q = s := List.mem_singleton.mp (OrdSet.mem_ofList.mp hexit)
  rfl

/-- A fragment fits together if its automaton does. -/
theorem WellFormed.of_toNFA (h : (F.toNFA S).WellFormed) : F.WellFormed S where
  entry_mem := h.start_mem
  exit_mem :=
    h.final_mem _ (OrdSet.mem_ofList.mpr (List.mem_singleton_self F.exit))
  source_mem := h.source_mem
  target_mem := h.target_mem
  symbol_mem := h.symbol_mem

/-- To rename the automaton of a fragment is to rename the fragment. -/
theorem rename_toNFA (hF : F.WellFormed S) (hf : (F.toNFA S).Separates f) :
    (F.toNFA S).rename f = (F.map f).toNFA S := by
  have hA := wellFormed_toNFA hF
  refine NFA.ext_mem rfl rfl (fun p => Iff.rfl) (fun p => ?_) fun e => ?_
  · rw [NFA.mem_final_rename_of_separates hA hf]
    simp [toNFA, map, eq_comm]
  · rw [NFA.mem_edges_rename_of_separates hA hf]
    simp [toNFA, map]

end Fragment

namespace NFA

variable {A B C : NFA α} {F : Fragment α} {n : Nat} {offset : State}

/-! ## The fragment of a fragment -/

/-- States numbered from zero on move on by the offset. -/
theorem packed_toNFA (hF : F.WellFormed S) (hn : n ≤ UInt32.size)
    (hstates : F.states = idsFrom 0 n) :
    (F.toNFA S).packed offset = (F.map (offset + ·)).toNFA S := by
  have hA := Fragment.wellFormed_toNFA hF
  have hsep : (F.toNFA S).Separates (offset + ·) :=
    fun q _ r _ h => by simpa using h
  calc (F.toNFA S).packed offset
      = (F.toNFA S).rename (offset + ·) :=
        rename_congr hA fun q hq => numbering_apply_of_states_eq hn hstates hq
    _ = (F.map (offset + ·)).toNFA S := Fragment.rename_toNFA hF hsep

/-- **The fragment of a fragment** that is numbered from zero on is the
fragment, moved on by the offset. -/
theorem fragment_toNFA (hF : F.WellFormed S)
    (hfit : offset.toNat + n ≤ UInt32.size)
    (hstates : F.states = idsFrom 0 n) :
    (F.toNFA S).fragment offset = F.map (offset + ·) := by
  have hn : n ≤ UInt32.size := by omega
  have hsize : (F.toNFA S).size = n := by
    rw [NFA.size, Fragment.toNFA, hstates, size_idsFrom (fit_zero hn)]
  refine Fragment.toNFA_inj (S := S) ?_
  calc ((F.toNFA S).fragment offset).toNFA S
      = (F.toNFA S).packed offset :=
        toNFA_fragment (Fragment.wellFormed_toNFA hF) (by rwa [hsize])
          (F.size_final_toNFA S)
    _ = (F.map (offset + ·)).toNFA S := packed_toNFA hF hn hstates

/-- A fragment at an offset is the one at zero, moved on by the offset. -/
theorem fragment_eq_map (hA : A.WellFormed)
    (hfit : offset.toNat + A.fragmentSize ≤ UInt32.size) :
    A.fragment offset = (A.fragment 0).map (offset + ·) := by
  have hn : A.fragmentSize ≤ UInt32.size := by omega
  refine Fragment.toNFA_inj (S := A.alphabet) ?_
  calc (A.fragment offset).toNFA A.alphabet
      = A.funnel.packed offset := (packed_funnel hA hfit).symm
    _ = ((A.fragment 0).map (offset + ·)).toNFA A.alphabet :=
        packed_toNFA (wellFormed_fragment hA 0) hn (states_fragment hA (fit_zero hn))

/-- **Offsets add up.** -/
theorem map_fragment (hA : A.WellFormed) {p q : State}
    (hfit : p.toNat + q.toNat + A.fragmentSize ≤ UInt32.size) :
    (A.fragment q).map (p + ·) = A.fragment (p + q) := by
  have hpos := Nat.lt_of_lt_of_le (size_pos hA) A.size_le_fragmentSize
  have hsum : (p + q).toNat = p.toNat + q.toNat := by
    rw [UInt32.toNat_add]
    exact Nat.mod_eq_of_lt (show _ < UInt32.size by omega)
  have hmove : (p + ·) ∘ (q + ·) = (p + q + · : State → State) :=
    funext fun r => (UInt32.add_assoc p q r).symm
  have hq : q.toNat + A.fragmentSize ≤ UInt32.size := by omega
  have hpq : (p + q).toNat + A.fragmentSize ≤ UInt32.size := by omega
  rw [fragment_eq_map hA hq, fragment_eq_map hA hpq, Fragment.map_map, hmove]

/-! ## Three automata in a row -/

/-- A sequence is its two fragments in a row. -/
theorem sequence_eq_toNFA (A B : NFA α) :
    A.sequence B = ((A.fragment 0).append
      (B.fragment (UInt32.ofNat (A.fragment 0).size))).toNFA
        (A.alphabet ∪ B.alphabet) := rfl

theorem fragmentSize_sequence (hA : A.WellFormed) (hB : B.WellFormed)
    (hfit : A.fragmentSize + B.fragmentSize ≤ UInt32.size) :
    (A.sequence B).fragmentSize = A.fragmentSize + B.fragmentSize := by
  rw [fragmentSize, if_pos (size_final_sequence A B), NFA.size,
    states_sequence hA hB hfit, size_idsFrom (fit_zero hfit)]

/-- **The fragment of a sequence** is the fragments of its parts in a row. -/
theorem fragment_sequence (hA : A.WellFormed) (hB : B.WellFormed)
    (hfit : offset.toNat + (A.fragmentSize + B.fragmentSize) ≤ UInt32.size) :
    (A.sequence B).fragment offset = (A.fragment offset).append
      (B.fragment (offset + UInt32.ofNat (A.fragment 0).size)) := by
  have hpair : A.fragmentSize + B.fragmentSize ≤ UInt32.size := by omega
  have hleft := toNat_size_left hA hB hpair
  have hstates := states_sequence hA hB hpair
  have hsequence := wellFormed_sequence hA hB
  rw [sequence_eq_toNFA] at hstates hsequence ⊢
  rw [fragment_toNFA (.of_toNFA hsequence) hfit hstates, Fragment.map_append,
    map_fragment hB (by omega), ← fragment_eq_map hA (by omega)]

/-- **Sequences are associative.** -/
theorem sequence_assoc (hA : A.WellFormed) (hB : B.WellFormed)
    (hC : C.WellFormed)
    (hfit : A.fragmentSize + B.fragmentSize + C.fragmentSize ≤ UInt32.size) :
    (A.sequence B).sequence C = A.sequence (B.sequence C) := by
  have hAB : A.fragmentSize + B.fragmentSize ≤ UInt32.size := by omega
  have hBC : B.fragmentSize + C.fragmentSize ≤ UInt32.size := by omega
  have hleft := toNat_size_left hA hB hAB
  have halphabet : (A.sequence B).alphabet ∪ C.alphabet
      = A.alphabet ∪ (B.sequence C).alphabet :=
    Std.ExtTreeSet.ext_mem fun a => by
      simp only [sequence, Std.ExtTreeSet.mem_union_iff, or_assoc]
  have hsize : ((A.sequence B).fragment 0).size
      = (A.fragment 0).size + (B.fragment 0).size := by
    rw [size_fragment hA (fit_left hAB), size_fragment hB (fit_left hBC),
      ← fragmentSize_sequence hA hB hAB]
    refine size_fragment (wellFormed_sequence hA hB) (fit_zero ?_)
    rwa [fragmentSize_sequence hA hB hAB]
  rw [sequence_eq_toNFA (A.sequence B) C, sequence_eq_toNFA A (B.sequence C),
    hsize, halphabet, fragment_sequence hA hB (fit_zero hAB),
    fragment_sequence hB hC (by omega), Fragment.append_assoc, UInt32.zero_add,
    UInt32.ofNat_add]

end NFA

end Recognizer
