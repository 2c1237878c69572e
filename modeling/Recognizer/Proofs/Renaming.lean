import Mathlib.Data.List.Nodup
import Recognizer.NFA.Path
import Recognizer.NFA.Renaming

/-!
# Renaming keeps the paths

Where no two states are given the same id, a renamed automaton is the old
one under new names: its accepting states and its edges are the images of
the old ones, a path goes over to a path of the images, and every path of
the renamed automaton is the image of one. What is accepted stays the same
(`accepts_rename_iff`).

Numbering the states from an offset on is such a renaming as long as there
are enough ids above the offset. The states then are an interval of ids
(`idsFrom`), which is what later keeps the parts of a construction apart:
intervals that follow each other have no id in common and together make up
an interval again.
-/

namespace Recognizer

/-! ## Intervals of ids -/

/-- **So many ids from an offset on.** -/
def idsFrom (offset : State) (n : Nat) : States :=
  OrdSet.ofList ((List.range n).map fun i => offset + UInt32.ofNat i)

theorem mem_idsFrom {offset p : State} {n : Nat} :
    p ∈ idsFrom offset n ↔ ∃ i < n, offset + UInt32.ofNat i = p := by
  simp [idsFrom]

/-- Ids below the highest add up as numbers do. -/
theorem toNat_add_ofNat {offset : State} {i : Nat}
    (h : offset.toNat + i < UInt32.size) :
    (offset + UInt32.ofNat i).toNat = offset.toNat + i := by
  rw [UInt32.toNat_add,
    UInt32.toNat_ofNat_of_lt' (Nat.lt_of_le_of_lt (Nat.le_add_left ..) h)]
  exact Nat.mod_eq_of_lt h

/-- Two ids in a row differ. -/
theorem ofNat_ne_ofNat_succ {i : Nat} (h : i + 1 < UInt32.size) :
    UInt32.ofNat i ≠ UInt32.ofNat (i + 1) := by
  intro he
  have he' := congrArg UInt32.toNat he
  rw [UInt32.toNat_ofNat_of_lt' (by omega), UInt32.toNat_ofNat_of_lt' h] at he'
  omega

/-- From zero on there is room for as many ids as there are. -/
theorem fit_zero {n : Nat} (h : n ≤ UInt32.size) :
    (0 : State).toNat + n ≤ UInt32.size := by
  rwa [UInt32.toNat_zero, Nat.zero_add]

/-- Where there is room for more, there is room for some. -/
theorem fit_left {m n : Nat} (h : m + n ≤ UInt32.size) :
    (0 : State).toNat + m ≤ UInt32.size :=
  fit_zero (Nat.le_trans (Nat.le_add_right ..) h)

/-- **The ids from an offset on are an interval**, if there is room. -/
theorem mem_idsFrom_iff {offset p : State} {n : Nat}
    (hfit : offset.toNat + n ≤ UInt32.size) :
    p ∈ idsFrom offset n ↔
      offset.toNat ≤ p.toNat ∧ p.toNat < offset.toNat + n := by
  rw [mem_idsFrom]
  constructor
  · rintro ⟨i, hi, rfl⟩
    rw [toNat_add_ofNat (by omega)]
    omega
  · rintro ⟨hle, hlt⟩
    refine ⟨p.toNat - offset.toNat, by omega, UInt32.toNat_inj.mp ?_⟩
    rw [toNat_add_ofNat (by omega)]
    omega

/-- The interval has the size asked for. -/
theorem size_idsFrom {offset : State} {n : Nat}
    (hfit : offset.toNat + n ≤ UInt32.size) : (idsFrom offset n).size = n := by
  unfold idsFrom
  rw [OrdSet.size_ofList_of_nodup, List.length_map, List.length_range]
  refine List.Nodup.map_on (fun i hi j hj h => ?_) List.nodup_range
  rw [List.mem_range] at hi hj
  have h' := congrArg UInt32.toNat h
  rw [toNat_add_ofNat (by omega), toNat_add_ofNat (by omega)] at h'
  omega

/-- One interval after another is an interval. -/
theorem idsFrom_union (offset : State) (m n : Nat) :
    idsFrom offset m ∪ idsFrom (offset + UInt32.ofNat m) n
      = idsFrom offset (m + n) := by
  refine Std.ExtTreeSet.ext_mem fun p => ?_
  rw [Std.ExtTreeSet.mem_union_iff, mem_idsFrom, mem_idsFrom, mem_idsFrom]
  constructor
  · rintro (⟨i, hi, rfl⟩ | ⟨i, hi, rfl⟩)
    · exact ⟨i, by omega, rfl⟩
    · exact ⟨m + i, by omega, by rw [UInt32.ofNat_add, UInt32.add_assoc]⟩
  · rintro ⟨i, hi, rfl⟩
    by_cases h : i < m
    · exact Or.inl ⟨i, h, rfl⟩
    · refine Or.inr ⟨i - m, by omega, ?_⟩
      rw [UInt32.add_assoc, ← UInt32.ofNat_add, Nat.add_sub_of_le (by omega)]

/-- The next id makes an interval longer by one. -/
theorem insert_idsFrom (offset : State) (n : Nat) :
    (idsFrom offset n).insert (offset + UInt32.ofNat n)
      = idsFrom offset (n + 1) := by
  refine Std.ExtTreeSet.ext_mem fun p => ?_
  rw [OrdSet.mem_insert, mem_idsFrom, mem_idsFrom]
  constructor
  · rintro (rfl | ⟨i, hi, rfl⟩)
    · exact ⟨n, Nat.lt_succ_self n, rfl⟩
    · exact ⟨i, by omega, rfl⟩
  · rintro ⟨i, hi, rfl⟩
    by_cases h : i = n
    · exact Or.inl (by rw [h])
    · exact Or.inr ⟨i, by omega, rfl⟩

/-- The ids behind an interval are none of it. -/
theorem not_mem_idsFrom {offset : State} {n i : Nat} (hni : n ≤ i)
    (hfit : offset.toNat + i < UInt32.size) :
    offset + UInt32.ofNat i ∉ idsFrom offset n := by
  rw [mem_idsFrom_iff (by omega), toNat_add_ofNat hfit]
  omega

/-- The ids from zero on, in order. -/
theorem toList_idsFrom_zero {n : Nat} (hn : n ≤ UInt32.size) :
    (idsFrom 0 n).toList = (List.range n).map UInt32.ofNat := by
  refine OrdSet.toList_eq_of_ascending ?_ fun p => ?_
  · rw [List.pairwise_map]
    refine List.pairwise_lt_range.imp_of_mem fun hi hj hlt => ?_
    rw [List.mem_range] at hi hj
    rw [Std.compare_eq_lt, UInt32.lt_iff_toNat_lt,
      UInt32.toNat_ofNat_of_lt' (by omega), UInt32.toNat_ofNat_of_lt' (by omega)]
    exact hlt
  · simp [mem_idsFrom]

namespace NFA

variable {α : Type} [LinearOrd α] {A : NFA α}

/-! ## Renaming without collisions -/

/-- **No two states are given the same id.** -/
def Separates (A : NFA α) (f : State → State) : Prop :=
  ∀ q ∈ A.states, ∀ r ∈ A.states, f q = f r → q = r

variable {f : State → State}

theorem mem_final_rename_of_separates (hA : A.WellFormed)
    (hf : A.Separates f) {p : State} :
    p ∈ (A.rename f).final ↔ ∃ q ∈ A.final, f q = p := by
  rw [mem_final_rename, survivors_of_injOn hf]
  exact exists_congr fun q =>
    ⟨fun h => ⟨h.1, h.2.2⟩, fun h => ⟨h.1, hA.final_mem q h.1, h.2⟩⟩

theorem mem_edges_rename_of_separates (hA : A.WellFormed)
    (hf : A.Separates f) {e : Edge (Label α)} :
    e ∈ (A.rename f).edges ↔ ∃ d ∈ A.edges, d.mapEnds f = e := by
  rw [mem_edges_rename, survivors_of_injOn hf]
  exact exists_congr fun d =>
    ⟨fun h => ⟨h.1, h.2.2⟩, fun h => ⟨h.1, hA.source_mem d h.1, h.2⟩⟩

/-- **One automaton is another one under new names**: its start, its states,
those that accept and its edges are all there under their new names, and there
is nothing else in it. -/
structure Renames (A : NFA α) (f : State → State) (B : NFA α) : Prop where
  alphabet_eq : B.alphabet = A.alphabet
  start_eq : B.start = f A.start
  mem_states_iff : ∀ p, p ∈ B.states ↔ ∃ q ∈ A.states, f q = p
  mem_final_iff : ∀ p, p ∈ B.final ↔ ∃ q ∈ A.final, f q = p
  mem_edges_iff : ∀ e, e ∈ B.edges ↔ ∃ d ∈ A.edges, d.mapEnds f = e

/-- **Renaming without collisions is that and no more.** -/
theorem renames_rename (hA : A.WellFormed) (hf : A.Separates f) :
    A.Renames f (A.rename f) where
  alphabet_eq := rfl
  start_eq := rfl
  mem_states_iff _ := mem_states_rename
  mem_final_iff _ := mem_final_rename_of_separates hA hf
  mem_edges_iff _ := mem_edges_rename_of_separates hA hf

/-- As many states accept as before. -/
theorem size_final_rename (hA : A.WellFormed) (hf : A.Separates f) :
    (A.rename f).final.size = A.final.size := by
  have hfinal : (A.rename f).final = OrdSet.ofList (A.final.toList.map f) :=
    Std.ExtTreeSet.ext_mem fun p => by
      rw [mem_final_rename_of_separates hA hf]
      simp
  rw [hfinal, OrdSet.size_ofList_of_nodup, List.length_map,
    Std.ExtTreeSet.length_toList]
  refine List.Nodup.map_on (fun q hq r hr => ?_) (OrdSet.nodup_toList _)
  rw [Std.ExtTreeSet.mem_toList] at hq hr
  exact hf q (hA.final_mem q hq) r (hA.final_mem r hr)

/-- **A path goes over to a path of the new names.** -/
theorem Path.rename (hA : A.WellFormed) (hf : A.Separates f) {p q : State}
    {w : List α} (h : A.Path p w q) : (A.rename f).Path (f p) w (f q) := by
  induction h with
  | refl => exact .refl _
  | silent he _ ih =>
    exact .silent ((mem_edges_rename_of_separates hA hf).mpr ⟨_, he, rfl⟩) ih
  | symbol he _ ih =>
    exact .symbol ((mem_edges_rename_of_separates hA hf).mpr ⟨_, he, rfl⟩) ih

/-- An edge under new names that leaves a renamed state comes from an edge
that leaves the state. -/
theorem exists_edge_of_rename (hA : A.WellFormed) (hf : A.Separates f)
    {p p' r' : State} {l : Label α} (hp : p ∈ A.states) (hp' : f p = p')
    (he : ⟨p', l, r'⟩ ∈ (A.rename f).edges) :
    ∃ r, f r = r' ∧ ⟨p, l, r⟩ ∈ A.edges := by
  obtain ⟨⟨s, m, r⟩, hd, hde⟩ := (mem_edges_rename_of_separates hA hf).mp he
  cases hde
  have hsp : s = p := hf s (hA.source_mem _ hd) p hp hp'.symm
  exact ⟨r, rfl, hsp ▸ hd⟩

/-- **A path under new names comes from a path.** -/
theorem exists_path_of_rename (hA : A.WellFormed) (hf : A.Separates f)
    {p q' : State} {w : List α} (hp : p ∈ A.states)
    (h : (A.rename f).Path (f p) w q') : ∃ q, f q = q' ∧ A.Path p w q := by
  -- the induction needs a variable where the path starts, not a new name
  generalize hp' : f p = p' at h
  induction h generalizing p with
  | refl => exact ⟨p, hp', .refl p⟩
  | silent he _ ih =>
    obtain ⟨r, hr, hd⟩ := exists_edge_of_rename hA hf hp hp' he
    obtain ⟨q, hq, hpath⟩ := ih (hA.target_mem _ hd) hr
    exact ⟨q, hq, .silent hd hpath⟩
  | symbol he _ ih =>
    obtain ⟨r, hr, hd⟩ := exists_edge_of_rename hA hf hp hp' he
    obtain ⟨q, hq, hpath⟩ := ih (hA.target_mem _ hd) hr
    exact ⟨q, hq, .symbol hd hpath⟩

/-- **Renaming changes nothing that is accepted.** -/
theorem accepts_rename_iff (hA : A.WellFormed) (hf : A.Separates f)
    {w : List α} : (A.rename f).Accepts w ↔ A.Accepts w := by
  constructor
  · rintro ⟨q', hq', h⟩
    obtain ⟨r, hr, rfl⟩ := (mem_final_rename_of_separates hA hf).mp hq'
    obtain ⟨q, hq, hpath⟩ := exists_path_of_rename hA hf hA.start_mem h
    -- the path ends where some accepting state has its name, which is it
    have hqr : q = r := hf q (hpath.mem_states hA hA.start_mem) r
      (hA.final_mem r hr) hq
    exact ⟨r, hr, hqr ▸ hpath⟩
  · rintro ⟨q, hq, h⟩
    exact ⟨f q, (mem_final_rename_of_separates hA hf).mpr ⟨q, hq, rfl⟩,
      h.rename hA hf⟩

/-! ## Numbering -/

/-- A state is one of the listed ones, and the list is as long as the
automaton is large. -/
theorem exists_getElem?_states {q : State} (hq : q ∈ A.states) :
    ∃ i < A.size, A.states.toList[i]? = some q := by
  obtain ⟨i, hi, h⟩ := List.getElem_of_mem (Std.ExtTreeSet.mem_toList.mpr hq)
  rw [Std.ExtTreeSet.length_toList] at hi
  exact ⟨i, hi, h ▸ List.getElem?_eq_getElem _⟩

/-- **The numbers of the states** are the ids from the offset on. -/
theorem states_packed (offset : State) :
    (A.packed offset).states = idsFrom offset A.size := by
  refine Std.ExtTreeSet.ext_mem fun p => ?_
  unfold packed
  rw [mem_states_rename, mem_idsFrom]
  constructor
  · rintro ⟨q, hq, rfl⟩
    obtain ⟨i, hi, h⟩ := exists_getElem?_states hq
    exact ⟨i, hi, (numbering_apply h).symm⟩
  · rintro ⟨i, hi, rfl⟩
    have hi' : i < A.states.toList.length := by
      rwa [Std.ExtTreeSet.length_toList]
    exact ⟨A.states.toList[i], Std.ExtTreeSet.mem_toList.mp
      (List.getElem_mem hi'), numbering_apply (List.getElem?_eq_getElem hi')⟩

/-- **No two states get the same number**, if there is room. -/
theorem separates_numbering {offset : State}
    (hfit : offset.toNat + A.size ≤ UInt32.size) :
    A.Separates (A.numbering offset).apply := by
  intro q hq r hr h
  obtain ⟨i, hi, hiq⟩ := exists_getElem?_states hq
  obtain ⟨j, hj, hjr⟩ := exists_getElem?_states hr
  rw [numbering_apply hiq, numbering_apply hjr] at h
  have h' := congrArg UInt32.toNat h
  rw [toNat_add_ofNat (by omega), toNat_add_ofNat (by omega),
    Nat.add_left_cancel_iff] at h'
  rw [h', hjr] at hiq
  exact (Option.some.inj hiq).symm

/-- A number counted from an offset is the number counted from zero, further
on by the offset. -/
theorem numbering_apply_eq_add {q : State} (hq : q ∈ A.states)
    (offset : State) :
    (A.numbering offset).apply q = offset + (A.numbering 0).apply q := by
  obtain ⟨i, -, hi⟩ := exists_getElem?_states hq
  rw [numbering_apply hi, numbering_apply hi, UInt32.zero_add]

/-- **States numbered from zero on** are numbered further on by the offset. -/
theorem numbering_apply_of_states_eq {offset : State} {n : Nat} (hn : n ≤ UInt32.size)
    (hstates : A.states = idsFrom 0 n) {q : State} (hq : q ∈ A.states) :
    (A.numbering offset).apply q = offset + q := by
  rw [hstates, mem_idsFrom] at hq
  obtain ⟨i, hi, rfl⟩ := hq
  rw [UInt32.zero_add]
  refine numbering_apply ?_
  rw [hstates, toList_idsFrom_zero hn, List.getElem?_map,
    List.getElem?_range hi, Option.map_some]

/-- **Numbering succeeds** just where the ids suffice. -/
theorem pack_eq_ok_iff {offset : State} {B : NFA α} :
    A.pack offset = .ok B ↔
      offset.toNat + A.size ≤ UInt32.size ∧ A.packed offset = B := by
  unfold pack
  split <;> simp <;> omega

/-- **Numbering refuses** just where they do not. -/
theorem pack_eq_error_iff {offset : State} {fault : NoRoom} :
    A.pack offset = .error fault ↔
      UInt32.size - offset.toNat < A.size ∧ fault = ⟨A.size, offset⟩ := by
  have hoffset : offset.toNat < UInt32.size := offset.toNat_lt
  unfold pack
  split <;> simp [eq_comm] <;> omega

end NFA

end Recognizer
