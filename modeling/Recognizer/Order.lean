import Std.Data.ExtTreeMap
import Std.Data.ExtTreeSet

/-!
# Linear orders, and the sets and maps they sort

Everything an automaton is made of – state ids, symbols, labels, even
whole sets of states – is listed in a fixed order, and two automata are
the same when they hold the same things. Both facts come from one
place: a type with a **linear order** (`LinearOrd`), and sets and maps
that are determined by their members (`OrdSet`, `OrdMap`).

`LinearOrd` bundles a comparison with the laws that make it a linear
order, so that a statement about symbols of any type needs to ask for
nothing else.

Main statements: `OrdSet.mem_ofList`, `OrdSet.mem_image` and
`OrdMap.getElem?_ofPairs`, which read a container back, and the
instances that order pairs lexicographically and sets by their sorted
members.
-/

namespace Recognizer

/-- **A linear order**: a comparison that is transitive and calls two
things equal only when they are. -/
class LinearOrd (α : Type) extends Ord α, Std.TransOrd α, Std.LawfulEqOrd α

instance : LinearOrd UInt32 where
instance : LinearOrd Char where
instance : LinearOrd Int64 where
instance : LinearOrd String where

namespace LinearOrd

variable {α β : Type}

theorem compare_eq_iff [LinearOrd α] {x y : α} :
    compare x y = .eq ↔ x = y :=
  Std.LawfulEqCmp.compare_eq_iff_eq

/-- Equality is decided by comparing. -/
instance (priority := low) decidableEq [LinearOrd α] : DecidableEq α :=
  fun x y => decidable_of_iff (compare x y = .eq) compare_eq_iff

/-- Lists are ordered lexicographically, a beginning before what it
begins. -/
instance [LinearOrd α] : LinearOrd (List α) where

/-- Pairs are ordered by their first parts, and by their second parts
where those agree. -/
instance [LinearOrd α] [LinearOrd β] : LinearOrd (α × β) where
  compare := compareLex (compareOn Prod.fst) (compareOn Prod.snd)
  eq_swap := Std.OrientedCmp.eq_swap
  isLE_trans h h' := Std.TransCmp.isLE_trans h h'
  compare_self := Std.ReflCmp.compare_self
  eq_of_compare {a b} h := by
    have h' : (compare a.1 b.1).then (compare a.2 b.2) = .eq := h
    rw [Ordering.then_eq_eq] at h'
    exact Prod.ext (Std.LawfulEqCmp.eq_of_compare h'.1)
      (Std.LawfulEqCmp.eq_of_compare h'.2)

theorem compare_pair_eq_lt_iff [LinearOrd α] [LinearOrd β] {x y : α × β} :
    compare x y = .lt ↔ compare x.1 y.1 = .lt ∨
      x.1 = y.1 ∧ compare x.2 y.2 = .lt := by
  rw [← compare_eq_iff (x := x.1)]
  change (compare x.1 y.1).then (compare x.2 y.2) = .lt ↔ _
  cases compare x.1 y.1 <;> simp

end LinearOrd

/-- A set with its members in ascending order; equal to every set with
the same members. -/
abbrev OrdSet (α : Type) [LinearOrd α] := Std.ExtTreeSet α

/-- A map with its keys in ascending order; equal to every map with the
same entries. -/
abbrev OrdMap (α β : Type) [LinearOrd α] := Std.ExtTreeMap α β

namespace OrdSet

variable {α β : Type} [LinearOrd α] [LinearOrd β]

/-- The set of the members of a list. -/
def ofList (xs : List α) : OrdSet α :=
  xs.foldl (fun s x => s.insert x) ∅

/-- The set of the images of the members. -/
def image (f : α → β) (s : OrdSet α) : OrdSet β :=
  ofList (s.toList.map f)

/-- Whether two sets share a member. -/
def meets (s t : OrdSet α) : Bool :=
  s.toList.any fun x => t.contains x

theorem mem_insert {s : OrdSet α} {x y : α} :
    y ∈ s.insert x ↔ y = x ∨ y ∈ s := by
  rw [Std.ExtTreeSet.mem_insert, LinearOrd.compare_eq_iff, eq_comm]

theorem mem_foldl_insert {xs : List α} {s : OrdSet α} {x : α} :
    x ∈ xs.foldl (fun s x => s.insert x) s ↔ x ∈ xs ∨ x ∈ s := by
  induction xs generalizing s with
  | nil => simp
  | cons y ys ih =>
    rw [List.foldl_cons, ih, mem_insert, List.mem_cons, or_left_comm, or_assoc]

/-- A set made from a list has the members of the list. -/
@[simp] theorem mem_ofList {xs : List α} {x : α} : x ∈ ofList xs ↔ x ∈ xs := by
  simp [ofList, mem_foldl_insert]

@[simp] theorem mem_image {f : α → β} {s : OrdSet α} {y : β} :
    y ∈ s.image f ↔ ∃ x ∈ s, f x = y := by
  simp [image]

/-- Two sets meet when some member of one is in the other. -/
@[simp] theorem meets_iff {s t : OrdSet α} :
    s.meets t = true ↔ ∃ x ∈ s, x ∈ t := by
  simp [meets, Std.ExtTreeSet.contains_iff_mem]

/-- Reading the members off and collecting them again gives the set. -/
@[simp] theorem ofList_toList (s : OrdSet α) : ofList s.toList = s :=
  Std.ExtTreeSet.ext_mem fun x => by simp

/-- No member is listed twice. -/
theorem nodup_toList (s : OrdSet α) : s.toList.Nodup :=
  Std.ExtTreeSet.distinct_toList.imp fun h e =>
    h (LinearOrd.compare_eq_iff.mpr e)

/-- **A set of things that are all different** has as many members as the
list it is made from. -/
theorem size_ofList_of_nodup {xs : List α} (h : xs.Nodup) :
    (ofList xs).size = xs.length := by
  rw [← Std.ExtTreeSet.length_toList]
  refine ((List.perm_ext_iff_of_nodup (nodup_toList _) h).mpr
    fun x => ?_).length_eq
  rw [Std.ExtTreeSet.mem_toList, mem_ofList]

/-- **The members in ascending order are the list of the set.** -/
theorem toList_eq_of_ascending {s : OrdSet α} {xs : List α}
    (hxs : xs.Pairwise fun x y => compare x y = .lt)
    (hmem : ∀ x, x ∈ xs ↔ x ∈ s) : s.toList = xs := by
  have hne : ∀ {x y : α}, compare x y = .lt → x ≠ y := by
    rintro x _ hlt rfl
    exact absurd (hlt.symm.trans (LinearOrd.compare_eq_iff.mpr rfl)) nofun
  have hperm : s.toList.Perm xs :=
    (List.perm_ext_iff_of_nodup (nodup_toList s) (hxs.imp hne)).mpr fun x => by
      rw [Std.ExtTreeSet.mem_toList, hmem]
  refine hperm.eq_of_pairwise (fun x y _ _ hxy hyx => ?_)
    Std.ExtTreeSet.ordered_toList hxs
  rw [@Std.OrientedCmp.eq_swap _ compare, hyx] at hxy
  exact absurd hxy nofun

/-- A set is compared by its members in ascending order. -/
instance : LinearOrd (OrdSet α) where
  compare s t := compare s.toList t.toList
  eq_swap := Std.OrientedCmp.eq_swap
  isLE_trans h h' := Std.TransCmp.isLE_trans h h'
  compare_self := Std.ReflCmp.compare_self
  eq_of_compare h :=
    Std.ExtTreeSet.toList_inj.mp (Std.LawfulEqCmp.eq_of_compare h)

end OrdSet

namespace OrdMap

variable {α β : Type} [LinearOrd α]

/-- The map of a list of pairs, where a later pair replaces an earlier
one of the same key. -/
def ofPairs (xs : List (α × β)) : OrdMap α β :=
  xs.foldl (fun m x => m.insert x.1 x.2) ∅

theorem getElem?_insert [DecidableEq α] {m : OrdMap α β} {k k' : α} {v : β} :
    (m.insert k v)[k']? = if k = k' then some v else m[k']? := by
  simp [Std.ExtTreeMap.getElem?_insert]

/-- **A pair that contradicts none** only adds to a map. -/
theorem getElem?_insert_eq_some_iff [DecidableEq α] {m : OrdMap α β}
    {k k' : α} {v v' : β} (h : ∀ u, m[k]? = some u → u = v) :
    (m.insert k v)[k']? = some v' ↔ (k', v') = (k, v) ∨ m[k']? = some v' := by
  rw [getElem?_insert, Prod.mk.injEq]
  by_cases hk : k = k'
  · rw [if_pos hk, Option.some.injEq, ← hk]
    refine ⟨fun hv => Or.inl ⟨rfl, hv.symm⟩, fun hv => ?_⟩
    exact (hv.elim And.right (h v')).symm
  · rw [if_neg hk]
    exact ⟨Or.inr, fun hv => hv.resolve_left fun hv => hk hv.1.symm⟩

theorem getElem?_foldl_insert [DecidableEq α] {xs : List (α × β)}
    {m : OrdMap α β} {k : α} :
    (xs.foldl (fun m x => m.insert x.1 x.2) m)[k]?
      = ((xs.reverse.find? fun x => x.1 = k).map Prod.snd).or m[k]? := by
  induction xs generalizing m with
  | nil => simp
  | cons x xs ih =>
    rw [List.foldl_cons, ih, getElem?_insert]
    by_cases h : x.1 = k <;>
      cases hf : xs.reverse.find? (fun x => x.1 = k) <;>
      simp [List.find?_append, h, hf]

/-- **The last pair of a key is the one that counts.** -/
theorem getElem?_ofPairs [DecidableEq α] {xs : List (α × β)} {k : α} :
    (ofPairs xs)[k]? = (xs.reverse.find? fun x => x.1 = k).map Prod.snd := by
  simp [ofPairs, getElem?_foldl_insert]

/-- An entry of the map is a pair of the list. -/
theorem mem_of_getElem?_ofPairs {xs : List (α × β)} {k : α} {v : β}
    (h : (ofPairs xs)[k]? = some v) : (k, v) ∈ xs := by
  rw [getElem?_ofPairs, Option.map_eq_some_iff] at h
  obtain ⟨⟨k', v'⟩, hx, rfl⟩ := h
  obtain rfl : k' = k := by simpa using List.find?_some hx
  exact List.mem_reverse.mp (List.mem_of_find?_eq_some hx)

omit [LinearOrd α] in
/-- Where no key is repeated, a pair is known by its key. -/
theorem eq_of_nodup_keys {xs : List (α × β)} (h : (xs.map Prod.fst).Nodup)
    {x y : α × β} (hx : x ∈ xs) (hy : y ∈ xs) (hk : x.1 = y.1) : x = y := by
  induction xs with
  | nil => simp at hx
  | cons z zs ih =>
    rw [List.map_cons, List.nodup_cons] at h
    rcases List.mem_cons.mp hx with rfl | hx' <;>
      rcases List.mem_cons.mp hy with rfl | hy'
    · rfl
    · exact absurd (hk ▸ List.mem_map_of_mem hy') h.1
    · exact absurd (hk ▸ List.mem_map_of_mem hx') h.1
    · exact ih h.2 hx' hy'

/-- Where all pairs of a key agree, they are what counts. -/
theorem getElem?_ofPairs_of_agree [DecidableEq α] {xs : List (α × β)} {k : α}
    {v : β} (hm : (k, v) ∈ xs) (h : ∀ x ∈ xs, x.1 = k → x.2 = v) :
    (ofPairs xs)[k]? = some v := by
  rw [getElem?_ofPairs]
  cases hf : xs.reverse.find? fun x => x.1 = k with
  | none =>
    have := List.find?_eq_none.mp hf (k, v) (List.mem_reverse.mpr hm)
    simp at this
  | some x =>
    have hx := List.mem_reverse.mp (List.mem_of_find?_eq_some hf)
    have hk : x.1 = k := by simpa using List.find?_some hf
    rw [Option.map_some, h x hx hk]

/-- Where no key is repeated, every pair counts. -/
theorem getElem?_ofPairs_of_nodup [DecidableEq α] {xs : List (α × β)}
    (h : (xs.map Prod.fst).Nodup) {k : α} {v : β} (hm : (k, v) ∈ xs) :
    (ofPairs xs)[k]? = some v :=
  getElem?_ofPairs_of_agree hm fun _ hx hk => by
    rw [eq_of_nodup_keys h hx hm hk]

/-- **Where no key is repeated the map has the pairs of the list.** -/
theorem getElem?_ofPairs_eq_some_iff {xs : List (α × β)}
    (h : (xs.map Prod.fst).Nodup) {k : α} {v : β} :
    (ofPairs xs)[k]? = some v ↔ (k, v) ∈ xs :=
  ⟨mem_of_getElem?_ofPairs, getElem?_ofPairs_of_nodup h⟩

/-- A filter that every entry passes changes nothing. -/
theorem filter_eq_self {m : OrdMap α β} {p : α → β → Bool}
    (h : ∀ k v, m[k]? = some v → p k v = true) : m.filter p = m :=
  Std.ExtTreeMap.ext_getElem? fun k => by
    rw [Std.ExtTreeMap.getElem?_filter']
    cases hk : m[k]? with
    | none => rfl
    | some v => rw [Option.filter_some, if_pos (h k v hk)]

end OrdMap

end Recognizer
