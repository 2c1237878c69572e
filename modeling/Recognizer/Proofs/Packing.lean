import Recognizer.Proofs.Invariance

/-!
# Renaming can be undone, and numbering is one renaming

Where no two states get the same name, a renaming only renames: the automaton is
there as it was, under new names (`NFA.Renames`), and no other automaton is. So
renamed states are as many as before, and so are renamed edges; one renaming
after another is a renaming (`NFA.rename_rename`), and the states that took the
names lead back, so that the automaton is got again as it was
(`NFA.rename_rename_eq_self`, `NFA.heirs_apply`). None of this
depends on the order in which names are given. Two states may change their
names with each other, and a state may get the name that another one gives up.

To number the states from an offset on is such a renaming. It keeps the order
of the states and leaves no gap, and there is no other one that does
(`NFA.Counts.unique`). So numbers forget what the states were called before,
and numbering twice is the same as numbering once (`NFA.pack_pack`).
-/

namespace Recognizer.NFA

variable {α : Type} [LinearOrd α] {A B C : NFA α} {f g : State → State}
  {offset q r : State}

/-! ## Renaming again and back -/

/-- A renaming that separates after another one shows that the other one does
so. -/
theorem Separates.of_comp (h : A.Separates (g ∘ f)) : A.Separates f :=
  fun q hq r hr he => h q hq r hr (congrArg g he)

/-- It separates what the other one has renamed. -/
theorem Separates.rename (h : A.Separates (g ∘ f)) :
    (A.rename f).Separates g := by
  intro _ hq' _ hr' he
  obtain ⟨q, hq, rfl⟩ := mem_states_rename.mp hq'
  obtain ⟨r, hr, rfl⟩ := mem_states_rename.mp hr'
  rw [h q hq r hr he]

/-- **Only the names that the states get matter.** -/
theorem rename_congr (hA : A.WellFormed) (h : ∀ q ∈ A.states, f q = g q) :
    A.rename f = A.rename g := by
  have hsurvivors : A.survivors f = A.survivors g :=
    Std.ExtTreeSet.ext_mem fun q => by
      simp only [mem_survivors]
      refine and_congr_right fun hq => forall₂_congr fun r hr => ?_
      rw [h r hr, h q hq]
  have hends : ∀ e ∈ A.edges, e.mapEnds f = e.mapEnds g := fun e he => by
    simp only [Edge.mapEnds, h _ (hA.source_mem e he), h _ (hA.target_mem e he)]
  refine ext_mem rfl (h _ hA.start_mem) (fun p => ?_) (fun p => ?_) fun e => ?_
  · simp only [mem_states_rename]
    exact exists_congr fun q => and_congr_right fun hq => by rw [h q hq]
  · simp only [mem_final_rename, hsurvivors]
    exact exists_congr fun q => and_congr_right fun hq => by
      rw [h q (hA.final_mem q hq)]
  · simp only [mem_edges_rename, hsurvivors]
    exact exists_congr fun d => and_congr_right fun hd => by rw [hends d hd]

/-- There is one automaton under given names. -/
theorem Renames.unique (hB : A.Renames f B) (hC : A.Renames f C) : B = C := by
  refine ext_mem (hB.alphabet_eq.trans hC.alphabet_eq.symm)
    (hB.start_eq.trans hC.start_eq.symm) (fun p => ?_) (fun p => ?_) fun e => ?_
  · rw [hB.mem_states_iff, hC.mem_states_iff]
  · rw [hB.mem_final_iff, hC.mem_final_iff]
  · rw [hB.mem_edges_iff, hC.mem_edges_iff]

/-- New names may get new names. -/
theorem Renames.comp (hB : A.Renames f B) (hC : B.Renames g C) :
    A.Renames (g ∘ f) C where
  alphabet_eq := hC.alphabet_eq.trans hB.alphabet_eq
  start_eq := by rw [hC.start_eq, hB.start_eq, Function.comp_apply]
  mem_states_iff p := by simp [hC.mem_states_iff, hB.mem_states_iff]
  mem_final_iff p := by simp [hC.mem_final_iff, hB.mem_final_iff]
  mem_edges_iff e := by
    simp [hC.mem_edges_iff, hB.mem_edges_iff, Edge.mapEnds]

/-- The old names may be the new ones. -/
theorem renames_id (A : NFA α) : A.Renames id A where
  alphabet_eq := rfl
  start_eq := rfl
  mem_states_iff p := by simp
  mem_final_iff p := by simp
  mem_edges_iff e := by simp [Edge.mapEnds]

/-- **One renaming after another is a renaming.** -/
theorem rename_rename (hA : A.WellFormed) (h : A.Separates (g ∘ f)) :
    (A.rename f).rename g = A.rename (g ∘ f) :=
  have hB := renames_rename hA h.of_comp
  have hC := renames_rename (wellFormed_rename hA f) h.rename
  (hB.comp hC).unique (renames_rename hA h)

/-- States that keep their names leave the automaton as it is. -/
theorem rename_eq_self (hA : A.WellFormed) (h : ∀ q ∈ A.states, f q = q) :
    A.rename f = A := by
  have hid : A.Separates id := fun _ _ _ _ he => he
  rw [rename_congr (g := id) hA h]
  exact (renames_rename hA hid).unique A.renames_id

/-- **What leads every state back undoes a renaming.** -/
theorem rename_rename_eq_self (hA : A.WellFormed)
    (h : ∀ q ∈ A.states, g (f q) = q) : (A.rename f).rename g = A := by
  have hsep : A.Separates (g ∘ f) := fun q hq r hr he => by
    rwa [Function.comp_apply, Function.comp_apply, h q hq, h r hr] at he
  rw [rename_rename hA hsep]
  exact rename_eq_self hA h

/-- **The states that took the names lead back.** -/
theorem heirs_apply (hf : A.Separates f) (hq : q ∈ A.states) :
    Renaming.apply (A.heirs f) (f q) = q := by
  have hkeys : ((A.states.toList.map fun q => (f q, q)).map Prod.fst).Nodup := by
    rw [List.map_map]
    exact separates_iff_nodup.mp hf
  have hmem : (f q, q) ∈ A.states.toList.map fun q => (f q, q) :=
    List.mem_map.mpr ⟨q, Std.ExtTreeSet.mem_toList.mpr hq, rfl⟩
  rw [Renaming.apply, heirs, OrdMap.getElem?_ofPairs_of_nodup hkeys hmem,
    Option.getD_some]

/-! ## Sizes -/

/-- There are as many states as before. -/
theorem size_rename (hf : A.Separates f) : (A.rename f).size = A.size := by
  show (OrdSet.ofList (A.states.toList.map f)).size = _
  rw [OrdSet.size_ofList_of_nodup (separates_iff_nodup.mp hf), List.length_map,
    Std.ExtTreeSet.length_toList]
  rfl

/-- There are as many edges as before. -/
theorem length_edgeList_rename (hA : A.WellFormed) (hf : A.Separates f) :
    (A.rename f).edgeList.length = A.edgeList.length := by
  have hinj : ∀ d ∈ A.edgeList, ∀ e ∈ A.edgeList,
      d.mapEnds f = e.mapEnds f → d = e := by
    rintro ⟨q, l, r⟩ hd ⟨q', l', r'⟩ he h
    rw [edgeList, EdgeSet.mem_toList] at hd he
    obtain ⟨hsource, rfl, htarget⟩ := Edge.mk.inj h
    rw [hf q (hA.source_mem _ hd) q' (hA.source_mem _ he) hsource,
      hf r (hA.target_mem _ hd) r' (hA.target_mem _ he) htarget]
  have hperm : (A.rename f).edgeList.Perm
      (A.edgeList.map (Edge.mapEnds f)) := by
    refine (List.perm_ext_iff_of_nodup (EdgeSet.nodup_toList _)
      ((EdgeSet.nodup_toList _).map_on hinj)).mpr fun e => ?_
    rw [edgeList, EdgeSet.mem_toList, mem_edges_rename_of_separates hA hf,
      List.mem_map]
    simp only [EdgeSet.mem_toList]
  rw [hperm.length_eq, List.length_map]

/-! ## Numbering -/

/-- **Names that count the states from an offset on**: they keep the order of
the states, and they are the ids from the offset on without a gap. -/
structure Counts (A : NFA α) (offset : State) (f : State → State) : Prop where
  lt : ∀ q ∈ A.states, ∀ r ∈ A.states, q < r → f q < f r
  mem_iff : ∀ p, (∃ q ∈ A.states, f q = p) ↔
    offset.toNat ≤ p.toNat ∧ p.toNat < offset.toNat + A.size

namespace Counts

/-- The names of the states are in order. -/
theorem pairwise (h : A.Counts offset f) :
    (A.states.toList.map f).Pairwise fun q r => compare q r = .lt := by
  rw [List.pairwise_map]
  refine Std.ExtTreeSet.ordered_toList.imp_of_mem fun hq hr hlt => ?_
  rw [Std.compare_eq_lt] at hlt ⊢
  exact h.lt _ (Std.ExtTreeSet.mem_toList.mp hq) _
    (Std.ExtTreeSet.mem_toList.mp hr) hlt

theorem toList_image (h : A.Counts offset f) :
    (A.states.image f).toList = A.states.toList.map f :=
  OrdSet.toList_eq_of_ascending h.pairwise fun p => by simp

/-- **There is one way to count.** -/
theorem unique (hf : A.Counts offset f) (hg : A.Counts offset g) :
    ∀ q ∈ A.states, f q = g q := by
  have himage : A.states.image f = A.states.image g :=
    Std.ExtTreeSet.ext_mem fun p => by
      rw [OrdSet.mem_image, OrdSet.mem_image, hf.mem_iff, hg.mem_iff]
  have hmap : A.states.toList.map f = A.states.toList.map g := by
    rw [← hf.toList_image, ← hg.toList_image, himage]
  exact fun q hq =>
    List.map_inj_left.mp hmap q (Std.ExtTreeSet.mem_toList.mpr hq)

theorem separates (h : A.Counts offset f) : A.Separates f := by
  intro q hq r hr he
  rcases Std.lt_trichotomy q r with hlt | rfl | hlt
  · exact absurd he (UInt32.ne_of_lt (h.lt q hq r hr hlt))
  · rfl
  · exact absurd he.symm (UInt32.ne_of_lt (h.lt r hr q hq hlt))

/-- **Counting what has been counted** counts from the second offset on. -/
theorem comp {offset' : State} (hf : A.Counts offset f)
    (hg : (A.rename f).Counts offset' g) : A.Counts offset' (g ∘ f) where
  lt q hq r hr hlt := hg.lt _ (mem_states_rename.mpr ⟨q, hq, rfl⟩) _
    (mem_states_rename.mpr ⟨r, hr, rfl⟩) (hf.lt q hq r hr hlt)
  mem_iff p := by
    rw [← size_rename hf.separates, ← hg.mem_iff]
    simp

end Counts

/-- A lower state comes first. -/
theorem place_lt_of_lt {i j : Nat} (hi : A.states.toList[i]? = some q)
    (hj : A.states.toList[j]? = some r) (h : q < r) : i < j := by
  obtain ⟨hi', rfl⟩ := List.getElem?_eq_some_iff.mp hi
  obtain ⟨hj', rfl⟩ := List.getElem?_eq_some_iff.mp hj
  refine Nat.lt_of_not_le fun hle => ?_
  rcases Nat.lt_or_eq_of_le hle with hlt | rfl
  · have hback := List.pairwise_iff_getElem.mp
      (Std.ExtTreeSet.ordered_toList (t := A.states)) j i hj' hi' hlt
    exact UInt32.lt_asymm h (Std.compare_eq_lt.mp hback)
  · exact UInt32.lt_irrefl _ h

/-- **The numbers count the states**, if there is room. -/
theorem counts_numbering (hfit : offset.toNat + A.size ≤ UInt32.size) :
    A.Counts offset (A.numbering offset).apply where
  lt q hq r hr hlt := by
    obtain ⟨i, hi, hiq⟩ := exists_getElem?_states hq
    obtain ⟨j, hj, hjr⟩ := exists_getElem?_states hr
    have hij := place_lt_of_lt hiq hjr hlt
    rw [numbering_apply hiq, numbering_apply hjr, UInt32.lt_iff_toNat_lt,
      toNat_add_ofNat (by omega), toNat_add_ofNat (by omega)]
    omega
  mem_iff p := by
    rw [← mem_idsFrom_iff hfit, ← states_packed]
    exact mem_states_rename.symm

/-- **Where the ids suffice, numbering is the renaming that counts.** -/
theorem pack_eq_ok_of_counts (hA : A.WellFormed)
    (hfit : offset.toNat + A.size ≤ UInt32.size) (hf : A.Counts offset f) :
    A.pack offset = .ok (A.rename f) :=
  pack_eq_ok_iff.mpr ⟨hfit, rename_congr hA ((counts_numbering hfit).unique hf)⟩

/-- **Numbers forget earlier numbers.** -/
theorem pack_pack (hA : A.WellFormed) {offset' : State}
    (h : A.pack offset = .ok B) : B.pack offset' = A.pack offset' := by
  obtain ⟨hfit, rfl⟩ := pack_eq_ok_iff.mp h
  have hf := counts_numbering hfit
  have hB : (A.packed offset).WellFormed := wellFormed_rename hA _
  have hsize : (A.packed offset).size = A.size := size_rename hf.separates
  by_cases hfit' : offset'.toNat + A.size ≤ UInt32.size
  · have hroom : offset'.toNat + (A.packed offset).size ≤ UInt32.size := by
      rwa [hsize]
    have hg := counts_numbering hroom
    have hgf := hf.comp hg
    calc (A.packed offset).pack offset'
        = .ok ((A.packed offset).rename _) := pack_eq_ok_of_counts hB hroom hg
      _ = .ok (A.rename _) := congrArg Except.ok (rename_rename hA hgf.separates)
      _ = A.pack offset' := (pack_eq_ok_of_counts hA hfit' hgf).symm
  · simp only [pack, hsize, if_pos (Nat.lt_of_not_le hfit')]

/-- **Numbering and renaming are pure renamings.** Numbering refuses just where
the ids do not suffice, and otherwise it is the one renaming that keeps the
order of the states and leaves no gap from the offset on. A renaming that gives
no two states the same name gives the same automaton under new names. It changes
no size and no answer and can be undone. What has been numbered is numbered
again as if it had not been. -/
theorem pack_and_rename_only_rename (hA : A.WellFormed) :
    (∀ offset fault, A.pack offset = .error fault ↔
      UInt32.size - offset.toNat < A.size ∧ fault = ⟨A.size, offset⟩) ∧
    (∀ offset : State, A.size ≤ UInt32.size - offset.toNat →
      ∃ f : Renaming, A.Counts offset f.apply ∧
        A.pack offset = .ok (A.rename f.apply) ∧
        ∀ g, A.Counts offset g → ∀ q ∈ A.states, g q = f.apply q) ∧
    (∀ f : Renaming, A.Separates f.apply →
      A.Renames f.apply (A.rename f.apply) ∧
      (A.rename f.apply).size = A.size ∧
      (A.rename f.apply).edgeList.length = A.edgeList.length ∧
      (A.rename f.apply).alphabet = A.alphabet ∧
      (∀ w, (A.rename f.apply).run w = A.run w) ∧
      (∃ g : Renaming, ∀ q ∈ A.states, g.apply (f.apply q) = q) ∧
      ∀ g : Renaming, (∀ q ∈ A.states, g.apply (f.apply q) = q) →
        (A.rename f.apply).rename g.apply = A) ∧
    ∀ offset offset' B, A.pack offset = .ok B →
      B.pack offset' = A.pack offset' := by
  refine ⟨fun offset fault => pack_eq_error_iff, fun offset hroom => ?_,
    fun f hf => ⟨renames_rename hA hf, size_rename hf,
      length_edgeList_rename hA hf, rfl, run_rename hA hf,
      ⟨A.heirs f.apply, fun q hq => heirs_apply hf hq⟩,
      fun g hg => rename_rename_eq_self hA hg⟩,
    fun offset offset' B h => pack_pack hA h⟩
  have hoffset : offset.toNat < UInt32.size := offset.toNat_lt
  have hfit : offset.toNat + A.size ≤ UInt32.size := by omega
  have hcounts := counts_numbering hfit
  exact ⟨A.numbering offset, hcounts, pack_eq_ok_of_counts hA hfit hcounts,
    fun g hg => hg.unique hcounts⟩

/-- Three of four states get other ids, two of them ids that others give up. -/
def upheaval : Renaming := OrdMap.ofPairs [(7, 9), (9, 3), (3, 0)]

/-- Each of three states takes the id that the next one gives up, and all of
them go back. Four states have room at the last four ids and none after the
first of these. -/
theorem pack_and_rename_only_rename_roundabout :
    roundabout.WellFormed ∧
      roundabout.pack 4294967293 = .error ⟨4, 4294967293⟩ ∧
      (∃ f : Renaming, f.apply 3 = 4294967292 ∧ f.apply 9 = 4294967294 ∧
        roundabout.pack 4294967292 = .ok (roundabout.rename f.apply)) ∧
      (roundabout.rename upheaval.apply).start = 9 ∧
      ⟨9, .silent, 3⟩ ∈ (roundabout.rename upheaval.apply).edges ∧
      (roundabout.rename upheaval.apply).run ['0'] = roundabout.run ['0'] ∧
      (roundabout.rename upheaval.apply).rename
        (Renaming.apply (OrdMap.ofPairs [(9, 7), (3, 9), (0, 3)]))
          = roundabout ∧
      (roundabout.packed 4294967292).pack 0 = roundabout.pack 0 := by
  have hsep : roundabout.Separates upheaval.apply :=
    separates_iff_nodup.mpr (by decide)
  have hback : ∀ q ∈ roundabout.states,
      Renaming.apply (OrdMap.ofPairs [(9, 7), (3, 9), (0, 3)])
        (upheaval.apply q) = q := by
    intro q hq
    have hq : q ∈ [3, 7, 9, 4294967295] := OrdSet.mem_ofList.mp hq
    simp only [List.mem_cons, List.not_mem_nil, or_false] at hq
    rcases hq with rfl | rfl | rfl | rfl <;> decide
  have hpack : roundabout.pack 4294967292
      = .ok (roundabout.packed 4294967292) :=
    pack_eq_ok_iff.mpr ⟨by decide, rfl⟩
  have hcounts : roundabout.Counts 4294967292
      (roundabout.numbering 4294967292).apply := counts_numbering (by decide)
  obtain ⟨hrefuse, hpacked, hrename, htwice⟩ :=
    pack_and_rename_only_rename wellFormed_roundabout
  obtain ⟨f, -, hf, hunique⟩ := hpacked 4294967292 (by decide)
  obtain ⟨hrenames, -, -, -, hrun, -, hundo⟩ := hrename _ hsep
  refine ⟨wellFormed_roundabout, (hrefuse _ _).mpr ⟨by decide, rfl⟩,
    ⟨f, ?_, ?_, hf⟩, hrenames.start_eq, ?_, hrun _, hundo _ hback,
    htwice _ 0 _ hpack⟩
  · rw [← hunique _ hcounts 3 (by decide)]
    decide
  · rw [← hunique _ hcounts 9 (by decide)]
    decide
  · exact (hrenames.mem_edges_iff _).mpr
      ⟨⟨7, .silent, 9⟩, by decide, by decide⟩

end Recognizer.NFA
