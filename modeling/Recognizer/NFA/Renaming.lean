import Recognizer.NFA.Basic

/-!
# Renaming states

`NFA.rename` gives every state a new id. When no two states get the
same id this changes nothing but names. When two do, the one with the
higher old id takes the place of the other, which loses its acceptance
and the edges that leave it; edges into either lead to the survivor.

`NFA.pack` lists the states in order and gives them the ids from an
offset on, as long as there are enough of them.
-/

namespace Recognizer

/-- New ids for some states; the others keep theirs. -/
abbrev Renaming := OrdMap State State

/-- The new id of a state. -/
def Renaming.apply (f : Renaming) (q : State) : State :=
  f[q]?.getD q

namespace NFA

variable {α : Type} [LinearOrd α]

/-- For each new id the state that takes it: the highest of those that
are given it. -/
def heirs (A : NFA α) (f : State → State) : OrdMap State State :=
  OrdMap.ofPairs (A.states.toList.map fun q => (f q, q))

/-- The states that take the id they are given. -/
def survivors (A : NFA α) (f : State → State) : States :=
  OrdSet.ofList ((A.heirs f).toList.map Prod.snd)

/-- **Gives every state a new id.** -/
def rename (A : NFA α) (f : State → State) : NFA α :=
  let survivors := A.survivors f
  { alphabet := A.alphabet
    start := f A.start
    states := A.states.image f
    final := OrdSet.image f (A.final.filter survivors.contains)
    edges := (A.edges.filter fun e => survivors.contains e.source).image
      (Edge.mapEnds f) }

/-- The states from the highest down. -/
theorem pairwise_reverse_states (A : NFA α) :
    A.states.toList.reverse.Pairwise fun q r => r < q := by
  rw [List.pairwise_reverse]
  exact Std.ExtTreeSet.ordered_toList.imp Std.compare_eq_lt.mp

theorem getElem?_heirs {A : NFA α} {f : State → State} {p : State} :
    (A.heirs f)[p]? = A.states.toList.reverse.find? fun q => f q = p := by
  rw [heirs, OrdMap.getElem?_ofPairs, ← List.map_reverse, List.find?_map,
    Option.map_map]
  change Option.map id (A.states.toList.reverse.find? fun q => f q = p) = _
  exact Option.map_id_apply

/-- **The highest of the states that are given an id takes it.** -/
theorem mem_survivors {A : NFA α} {f : State → State} {q : State} :
    q ∈ A.survivors f ↔
      q ∈ A.states ∧ ∀ r ∈ A.states, f r = f q → r ≤ q := by
  have hheir : q ∈ A.survivors f ↔ (A.heirs f)[f q]? = some q := by
    rw [survivors, OrdSet.mem_ofList, List.mem_map]
    constructor
    · rintro ⟨⟨p, r⟩, hm, rfl⟩
      rw [Std.ExtTreeMap.mem_toList_iff_getElem?_eq_some] at hm
      have hm' := hm
      rw [getElem?_heirs] at hm'
      have hp : f r = p := by simpa using List.find?_some hm'
      exact hp ▸ hm
    · intro h
      exact ⟨(f q, q), Std.ExtTreeMap.mem_toList_iff_getElem?_eq_some.mpr h,
        rfl⟩
  rw [hheir, getElem?_heirs]
  constructor
  · intro h
    have hq := List.mem_of_find?_eq_some h
    rw [List.mem_reverse, Std.ExtTreeSet.mem_toList] at hq
    refine ⟨hq, fun r hr hfr => ?_⟩
    obtain ⟨-, as, bs, hsplit, has⟩ := List.find?_eq_some_iff_append.mp h
    have hr' : r ∈ A.states.toList.reverse := by simpa using hr
    have hpw := A.pairwise_reverse_states
    rw [hsplit] at hr' hpw
    rcases List.mem_append.mp hr' with hr' | hr'
    · have := has r hr'
      simp [hfr] at this
    · rcases List.mem_cons.mp hr' with rfl | hr'
      · exact UInt32.le_refl r
      · have := (List.pairwise_append.mp hpw).2.1
        exact UInt32.le_of_lt (List.rel_of_pairwise_cons this hr')
  · rintro ⟨hq, hmax⟩
    obtain ⟨as, bs, hsplit⟩ := List.append_of_mem
      (List.mem_reverse.mpr (Std.ExtTreeSet.mem_toList.mpr hq))
    refine List.find?_eq_some_iff_append.mpr ⟨by simp, as, bs, hsplit, ?_⟩
    intro r hr
    have hpw := A.pairwise_reverse_states
    rw [hsplit, List.pairwise_append] at hpw
    have hlt : q < r := hpw.2.2 r hr q List.mem_cons_self
    have hr' : r ∈ A.states := by
      rw [← Std.ExtTreeSet.mem_toList, ← List.mem_reverse, hsplit]
      exact List.mem_append.mpr (Or.inl hr)
    have hne : f r ≠ f q := fun h =>
      UInt32.not_lt.mpr (hmax r hr' h) hlt
    simpa using hne

/-- Where no two states are given the same id, every state takes its
own. -/
theorem survivors_of_injOn {A : NFA α} {f : State → State}
    (hf : ∀ q ∈ A.states, ∀ r ∈ A.states, f q = f r → q = r) :
    A.survivors f = A.states :=
  Std.ExtTreeSet.ext_mem fun q => by
    rw [mem_survivors]
    exact ⟨fun h => h.1, fun h => ⟨h, fun r hr e =>
      UInt32.le_of_eq (hf r hr q h e)⟩⟩

@[simp] theorem mem_states_rename {A : NFA α} {f : State → State}
    {p : State} : p ∈ (A.rename f).states ↔ ∃ q ∈ A.states, f q = p :=
  OrdSet.mem_image

theorem mem_final_rename {A : NFA α} {f : State → State}
    {p : State} :
    p ∈ (A.rename f).final ↔
      ∃ q ∈ A.final, q ∈ A.survivors f ∧ f q = p := by
  simp [rename, and_assoc]

theorem mem_edges_rename {A : NFA α} {f : State → State}
    {e : Edge (Label α)} :
    e ∈ (A.rename f).edges ↔
      ∃ d ∈ A.edges, d.source ∈ A.survivors f ∧ d.mapEnds f = e := by
  simp [rename, and_assoc]

/-- **A renamed automaton is well-formed**, whether or not states fall
together. -/
theorem wellFormed_rename {A : NFA α} (hA : A.WellFormed)
    (f : State → State) : (A.rename f).WellFormed where
  start_mem := mem_states_rename.mpr ⟨A.start, hA.start_mem, rfl⟩
  final_mem p hp := by
    obtain ⟨q, hq, -, rfl⟩ := mem_final_rename.mp hp
    exact mem_states_rename.mpr ⟨q, hA.final_mem q hq, rfl⟩
  source_mem e he := by
    obtain ⟨d, hd, -, rfl⟩ := mem_edges_rename.mp he
    exact mem_states_rename.mpr ⟨d.source, hA.source_mem d hd, rfl⟩
  target_mem e he := by
    obtain ⟨d, hd, -, rfl⟩ := mem_edges_rename.mp he
    exact mem_states_rename.mpr ⟨d.target, hA.target_mem d hd, rfl⟩
  symbol_mem e he a ha := by
    obtain ⟨d, hd, -, rfl⟩ := mem_edges_rename.mp he
    exact hA.symbol_mem d hd a ha

/-- The states in ascending order, numbered from an offset on. -/
def numbering (A : NFA α) (offset : State) : Renaming :=
  OrdMap.ofPairs (A.states.toList.zipIdx.map fun x =>
    (x.1, offset + UInt32.ofNat x.2))

/-- The automaton with its states numbered from an offset on. Ids wrap
around where there are too few; `pack` refuses that. -/
def packed (offset : State) (A : NFA α) : NFA α :=
  A.rename (A.numbering offset).apply

/-- **A state's number is its place in the order**, counted from the
offset. -/
theorem numbering_apply {A : NFA α} {offset q : State} {i : Nat}
    (h : A.states.toList[i]? = some q) :
    (A.numbering offset).apply q = offset + UInt32.ofNat i := by
  have hkeys : ((A.states.toList.zipIdx.map fun x =>
      (x.1, offset + UInt32.ofNat x.2)).map Prod.fst).Nodup := by
    rw [List.map_map]
    change (A.states.toList.zipIdx.map Prod.fst).Nodup
    rw [List.zipIdx_map_fst]
    exact OrdSet.nodup_toList _
  have hm : (q, offset + UInt32.ofNat i) ∈ A.states.toList.zipIdx.map
      fun x => (x.1, offset + UInt32.ofNat x.2) :=
    List.mem_map.mpr ⟨(q, i), List.mem_zipIdx_iff_getElem?.mpr h, rfl⟩
  rw [Renaming.apply, numbering, OrdMap.getElem?_ofPairs_of_nodup hkeys hm,
    Option.getD_some]

/-- **Numbers the states from an offset on**, if there is room. -/
def pack (offset : State) (A : NFA α) : Except NoRoom (NFA α) :=
  if UInt32.size < offset.toNat + A.size then .error ⟨A.size, offset⟩
  else .ok (A.packed offset)

end NFA

end Recognizer
