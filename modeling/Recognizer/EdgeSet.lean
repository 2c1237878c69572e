import Recognizer.Edge

/-!
# Sets of edges

A simulation asks one thing of a transition table, many times over:
where does this state go under this label? `EdgeSet` keeps the answer
ready, as a map from a source and a label to the set of targets, and
never keeps an empty answer. Because of that a table is determined by
its edges, so that `EdgeSet` is at the same time what its name says, a
set of edges:

* `EdgeSet.ext` – two tables with the same edges are equal;
* `EdgeSet.mem_insert`, `EdgeSet.mem_union`, `EdgeSet.mem_image`,
  `EdgeSet.mem_filter` – every operation is the one on sets;
* `EdgeSet.mem_toList` and `EdgeSet.sorted_toList` – the edges are
  listed once each, by source, then label, then target.
-/

namespace Recognizer

/-- **A set of edges**, arranged for look-up. -/
structure EdgeSet (ℓ : Type) [LinearOrd ℓ] where
  /-- The targets of each source and label that has any. -/
  table : OrdMap (State × ℓ) States
  /-- An entry is never empty. -/
  ne_empty : ∀ (k : State × ℓ) (T : States), table[k]? = some T → T ≠ ∅

namespace EdgeSet

variable {ℓ m : Type} [LinearOrd ℓ] [LinearOrd m]

instance : DecidableEq (EdgeSet ℓ) := fun E F =>
  decidable_of_iff (E.table = F.table) <| by
    cases E; cases F; simp

/-- Where a state goes under a label, if it goes anywhere. -/
def targets? (E : EdgeSet ℓ) (q : State) (l : ℓ) : Option States :=
  E.table[(q, l)]?

/-- Where a state goes under a label. -/
def targets (E : EdgeSet ℓ) (q : State) (l : ℓ) : States :=
  (E.targets? q l).getD ∅

instance : Membership (Edge ℓ) (EdgeSet ℓ) where
  mem E e := e.target ∈ E.targets e.source e.label

theorem mem_iff {E : EdgeSet ℓ} {e : Edge ℓ} :
    e ∈ E ↔ e.target ∈ E.targets e.source e.label := Iff.rfl

instance (E : EdgeSet ℓ) (e : Edge ℓ) : Decidable (e ∈ E) :=
  decidable_of_iff _ mem_iff.symm

@[simp] theorem mem_targets {E : EdgeSet ℓ} {q r : State} {l : ℓ} :
    r ∈ E.targets q l ↔ ⟨q, l, r⟩ ∈ E := Iff.rfl

/-- **No entry is empty**: a state with an answer has a target. -/
theorem targets?_eq_some_iff {E : EdgeSet ℓ} {q : State} {l : ℓ}
    {T : States} :
    E.targets? q l = some T ↔ T ≠ ∅ ∧ E.targets q l = T := by
  unfold targets
  constructor
  · intro h
    exact ⟨E.ne_empty _ _ h, by rw [h]; rfl⟩
  · rintro ⟨hT, h⟩
    cases hq : E.targets? q l with
    | none => rw [hq] at h; exact absurd h.symm hT
    | some U => rw [hq] at h; simpa using h

theorem targets?_eq_none_iff {E : EdgeSet ℓ} {q : State} {l : ℓ} :
    E.targets? q l = none ↔ E.targets q l = ∅ := by
  cases hq : E.targets? q l with
  | none => simp [targets, hq]
  | some T =>
    have := targets?_eq_some_iff.mp hq
    simp [this.2, this.1]

/-- **A table is determined by its edges.** -/
theorem ext {E F : EdgeSet ℓ} (h : ∀ e, e ∈ E ↔ e ∈ F) : E = F := by
  have ht : ∀ q l, E.targets q l = F.targets q l := fun q l =>
    Std.ExtTreeSet.ext_mem fun r => h ⟨q, l, r⟩
  have htab : E.table = F.table := Std.ExtTreeMap.ext_getElem? fun k => by
    change E.targets? k.1 k.2 = F.targets? k.1 k.2
    cases hE : E.targets? k.1 k.2 with
    | none =>
      rw [targets?_eq_none_iff, ht] at hE
      rw [targets?_eq_none_iff.mpr hE]
    | some T =>
      rw [targets?_eq_some_iff, ht] at hE
      rw [targets?_eq_some_iff.mpr hE]
  cases E; cases F; cases htab; rfl

/-! ## Building -/

/-- No edges. -/
def empty : EdgeSet ℓ := ⟨∅, by simp⟩

instance : EmptyCollection (EdgeSet ℓ) := ⟨empty⟩

/-- One more edge. -/
def insert (E : EdgeSet ℓ) (e : Edge ℓ) : EdgeSet ℓ where
  table := E.table.insert (e.source, e.label)
    ((E.targets e.source e.label).insert e.target)
  ne_empty k T h := by
    rw [OrdMap.getElem?_insert] at h
    split at h
    · cases h
      exact fun h => by
        simpa [h] using OrdSet.mem_insert.mpr
          (Or.inl rfl : e.target = e.target ∨
            e.target ∈ E.targets e.source e.label)
    · exact E.ne_empty k T h

/-- The edges of a list. -/
def ofList (es : List (Edge ℓ)) : EdgeSet ℓ :=
  es.foldl insert ∅

/-- The edges in order. -/
def toList (E : EdgeSet ℓ) : List (Edge ℓ) :=
  E.table.toList.flatMap fun entry =>
    entry.2.toList.map fun r => ⟨entry.1.1, entry.1.2, r⟩

/-- The edges of either set. -/
def union (E F : EdgeSet ℓ) : EdgeSet ℓ :=
  F.toList.foldl insert E

instance : Union (EdgeSet ℓ) := ⟨union⟩

/-- The edges that satisfy a condition. -/
def filter (p : Edge ℓ → Bool) (E : EdgeSet ℓ) : EdgeSet ℓ :=
  ofList (E.toList.filter p)

/-- The images of the edges. -/
def image (f : Edge ℓ → Edge m) (E : EdgeSet ℓ) : EdgeSet m :=
  ofList (E.toList.map f)

/-! ## Membership -/

@[simp] theorem not_mem_empty {e : Edge ℓ} : e ∉ (∅ : EdgeSet ℓ) := by
  rw [mem_iff, targets, targets?]
  change e.target ∉ ((∅ : OrdMap (State × ℓ) States)[_]?).getD ∅
  simp

@[simp] theorem mem_insert {E : EdgeSet ℓ} {e f : Edge ℓ} :
    f ∈ E.insert e ↔ f = e ∨ f ∈ E := by
  obtain ⟨q, l, r⟩ := e
  obtain ⟨q', l', r'⟩ := f
  simp only [mem_iff, targets, targets?, insert, OrdMap.getElem?_insert]
  by_cases h : (q, l) = (q', l')
  · cases h
    rw [if_pos rfl, Option.getD_some, OrdSet.mem_insert]
    simp
  · have : ¬ (q' = q ∧ l' = l ∧ r' = r) := fun h' => h (by simp [h'.1, h'.2.1])
    simp [h, this]

theorem mem_foldl_insert {es : List (Edge ℓ)} {E : EdgeSet ℓ} {e : Edge ℓ} :
    e ∈ es.foldl insert E ↔ e ∈ es ∨ e ∈ E := by
  induction es generalizing E with
  | nil => simp
  | cons f fs ih =>
    rw [List.foldl_cons, ih, mem_insert, List.mem_cons, or_left_comm, or_assoc]

@[simp] theorem mem_ofList {es : List (Edge ℓ)} {e : Edge ℓ} :
    e ∈ ofList es ↔ e ∈ es := by
  simp [ofList, mem_foldl_insert]

@[simp] theorem mem_toList {E : EdgeSet ℓ} {e : Edge ℓ} :
    e ∈ E.toList ↔ e ∈ E := by
  obtain ⟨q, l, r⟩ := e
  simp only [toList, List.mem_flatMap, List.mem_map]
  constructor
  · rintro ⟨⟨⟨q', l'⟩, T⟩, hk, r', hr, he⟩
    cases he
    rw [Std.ExtTreeMap.mem_toList_iff_getElem?_eq_some] at hk
    rw [mem_iff, targets, targets?, hk]
    exact Std.ExtTreeSet.mem_toList.mp hr
  · intro h
    rw [mem_iff] at h
    cases hq : E.targets? q l with
    | none => simp [targets, hq] at h
    | some T =>
      rw [targets, hq] at h
      exact ⟨((q, l), T),
        Std.ExtTreeMap.mem_toList_iff_getElem?_eq_some.mpr hq, r,
        Std.ExtTreeSet.mem_toList.mpr h, rfl⟩

@[simp] theorem mem_union {E F : EdgeSet ℓ} {e : Edge ℓ} :
    e ∈ E ∪ F ↔ e ∈ E ∨ e ∈ F := by
  change e ∈ E.union F ↔ _
  rw [union, mem_foldl_insert, mem_toList, or_comm]

@[simp] theorem mem_filter {p : Edge ℓ → Bool} {E : EdgeSet ℓ} {e : Edge ℓ} :
    e ∈ E.filter p ↔ e ∈ E ∧ p e = true := by
  simp [filter]

@[simp] theorem mem_image {f : Edge ℓ → Edge m} {E : EdgeSet ℓ}
    {e : Edge m} : e ∈ E.image f ↔ ∃ d ∈ E, f d = e := by
  simp [image]

/-- Listing the edges and collecting them again gives the set. -/
@[simp] theorem ofList_toList (E : EdgeSet ℓ) : ofList E.toList = E :=
  ext fun e => by simp

/-! ## The order of the list -/

/-- **The edges ascend**, by source, then label, then target. -/
theorem sorted_toList (E : EdgeSet ℓ) :
    E.toList.Pairwise fun e f => compare e f = .lt := by
  unfold toList
  rw [List.pairwise_flatMap]
  constructor
  · intro entry _
    rw [List.pairwise_map]
    refine Std.ExtTreeSet.ordered_toList.imp ?_
    intro r r' h
    exact Edge.compare_eq_lt_iff.mpr (Or.inr ⟨rfl, h⟩)
  · refine Std.ExtTreeMap.ordered_keys_toList.imp ?_
    intro x y h e he f hf
    obtain ⟨r, -, rfl⟩ := List.mem_map.mp he
    obtain ⟨r', -, rfl⟩ := List.mem_map.mp hf
    exact Edge.compare_eq_lt_iff.mpr (Or.inl h)

/-- No edge is listed twice. -/
theorem nodup_toList (E : EdgeSet ℓ) : E.toList.Nodup := by
  refine E.sorted_toList.imp fun h he => ?_
  rw [LinearOrd.compare_eq_iff.mpr he] at h
  exact Ordering.noConfusion h

end EdgeSet

end Recognizer
