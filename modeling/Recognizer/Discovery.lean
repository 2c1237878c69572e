import Recognizer.Order

/-!
# Discovery

Start with some items, look at each, and take in every new item that it
leads to: `discover` lists all that can be reached, each item once, in
the order in which it was first seen. The set of states that silent
moves reach is found this way, and so are the sets of states that become
the states of a deterministic automaton, where the order is what numbers
them.

The search goes by layers. A layer holds the items first seen in the
layer before, so that the n-th layer is what n steps reach and fewer do
not. Every layer but the last brings something new, and therefore the
number of items bounds the number of layers. The bound is an argument:
where it holds, the search ends because nothing new is left.

Main statements: no item is listed twice (`nodup_discover`), every item
listed is reachable (`reachable_of_mem_discover`), and under a bound
that holds every reachable item is listed (`mem_discover_iff`).
-/

namespace Recognizer

variable {α : Type}

/-- **Reachability** from some items, where a step leads to any item
that `next` names. -/
inductive Reachable (next : α → List α) (starts : List α) : α → Prop where
  | start {x : α} : x ∈ starts → Reachable next starts x
  | step {x y : α} : Reachable next starts x → y ∈ next x →
      Reachable next starts y

namespace Reachable

variable {next : α → List α}

/-- What is reachable from some items is reachable from more. -/
theorem mono {starts more : List α} {x : α} (h : Reachable next starts x)
    (hs : ∀ y ∈ starts, Reachable next more y) : Reachable next more x := by
  induction h with
  | start h => exact hs _ h
  | step _ hy ih => exact .step ih hy

/-- What is reachable from some items is reachable from one of them. -/
theorem iff_exists {starts : List α} {x : α} :
    Reachable next starts x ↔ ∃ y ∈ starts, Reachable next [y] x := by
  constructor
  · intro h
    induction h with
    | start h => exact ⟨_, h, .start List.mem_cons_self⟩
    | step _ hy ih =>
      obtain ⟨z, hz, h⟩ := ih
      exact ⟨z, hz, .step h hy⟩
  · rintro ⟨y, hy, h⟩
    exact h.mono fun z hz => .start (List.mem_singleton.mp hz ▸ hy)

end Reachable

variable [LinearOrd α]

/-- The items of a list that were not seen before, at their first
occurrences. -/
def fresh (seen : OrdSet α) : List α → List α
  | [] => []
  | x :: xs =>
    if x ∈ seen then fresh seen xs else x :: fresh (seen.insert x) xs

/-- **The layers from one on**, one after the other. The layer and all
before it are seen. -/
def explore (next : α → List α) : Nat → OrdSet α → List α → List α
  | 0, _, layer => layer
  | bound + 1, seen, layer =>
    match fresh seen (layer.flatMap next) with
    | [] => layer
    | y :: ys =>
      layer ++ explore next bound (seen ∪ OrdSet.ofList (y :: ys)) (y :: ys)

/-- **All that can be reached**, in the order of discovery. No more than
`bound` layers are looked at after the first. -/
def discover (bound : Nat) (next : α → List α) (starts : List α) : List α :=
  explore next bound (OrdSet.ofList starts) (fresh ∅ starts)

/-! ## First occurrences -/

@[simp] theorem mem_fresh {seen : OrdSet α} {xs : List α} {x : α} :
    x ∈ fresh seen xs ↔ x ∈ xs ∧ x ∉ seen := by
  induction xs generalizing seen with
  | nil => simp [fresh]
  | cons y ys ih =>
    rw [fresh]
    split
    · next hy =>
      rw [ih, List.mem_cons]
      exact ⟨fun h => ⟨Or.inr h.1, h.2⟩, fun h =>
        ⟨h.1.resolve_left fun e => h.2 (e ▸ hy), h.2⟩⟩
    · next hy =>
      rw [List.mem_cons, ih, OrdSet.mem_insert, List.mem_cons]
      by_cases hx : x = y
      · simp [hx, hy]
      · simp [hx]

/-- First occurrences are not repeated. -/
theorem nodup_fresh (seen : OrdSet α) (xs : List α) :
    (fresh seen xs).Nodup := by
  induction xs generalizing seen with
  | nil => simp [fresh]
  | cons y ys ih =>
    rw [fresh]
    split
    · exact ih seen
    · refine List.nodup_cons.mpr ⟨fun h => ?_, ih _⟩
      exact (mem_fresh.mp h).2 (OrdSet.mem_insert.mpr (Or.inl rfl))

/-! ## The layers -/

/-- A layer is part of what is found from it on. -/
theorem mem_explore_of_mem {next : α → List α} {bound : Nat}
    {seen : OrdSet α} {layer : List α} {x : α} (h : x ∈ layer) :
    x ∈ explore next bound seen layer := by
  cases bound with
  | zero => exact h
  | succ bound =>
    rw [explore]
    split
    · exact h
    · exact List.mem_append.mpr (Or.inl h)

/-- What is found from a layer on begins with the layer. -/
theorem head?_explore (next : α → List α) (bound : Nat) (seen : OrdSet α)
    {layer : List α} (h : layer ≠ []) :
    (explore next bound seen layer).head? = layer.head? := by
  cases bound with
  | zero => rfl
  | succ bound =>
    rw [explore]
    split
    · rfl
    · obtain ⟨x, xs, rfl⟩ := List.exists_cons_of_ne_nil h
      rfl

/-- **Nothing is found that no step leads to.** -/
theorem reachable_of_mem_explore {next : α → List α} {starts : List α}
    {bound : Nat} {seen : OrdSet α} {layer : List α}
    (hl : ∀ x ∈ layer, Reachable next starts x) :
    ∀ x ∈ explore next bound seen layer, Reachable next starts x := by
  induction bound generalizing seen layer with
  | zero => exact hl
  | succ bound ih =>
    rw [explore]
    split
    · exact hl
    · next y ys hf =>
      intro x hx
      rcases List.mem_append.mp hx with hx | hx
      · exact hl x hx
      · refine ih (fun z hz => ?_) x hx
        rw [← hf, mem_fresh, List.mem_flatMap] at hz
        obtain ⟨⟨w, hw, hz⟩, -⟩ := hz
        exact .step (hl w hw) hz

/-- **Nothing is found twice**, and nothing that was seen in an earlier
layer. -/
theorem nodup_explore {next : α → List α} {bound : Nat} {seen : OrdSet α}
    {layer : List α} (hl : layer.Nodup) (hs : ∀ x ∈ layer, x ∈ seen) :
    (explore next bound seen layer).Nodup ∧
      ∀ x ∈ explore next bound seen layer, x ∈ layer ∨ x ∉ seen := by
  induction bound generalizing seen layer with
  | zero => exact ⟨hl, fun x hx => Or.inl hx⟩
  | succ bound ih =>
    rw [explore]
    split
    · exact ⟨hl, fun x hx => Or.inl hx⟩
    · next y ys hf =>
      have hnew : ∀ x ∈ y :: ys, x ∉ seen := fun x hx =>
        (mem_fresh.mp (hf ▸ hx : x ∈ fresh seen (layer.flatMap next))).2
      obtain ⟨hn, hm⟩ := @ih (seen ∪ OrdSet.ofList (y :: ys)) (y :: ys)
        (hf ▸ nodup_fresh seen (layer.flatMap next)) fun x hx => by
          rw [Std.ExtTreeSet.mem_union_iff, OrdSet.mem_ofList]
          exact Or.inr hx
      have hout : ∀ x ∈ explore next bound (seen ∪ OrdSet.ofList (y :: ys))
          (y :: ys), x ∉ seen := fun x hx =>
        (hm x hx).elim (hnew x) fun h h' =>
          h (Std.ExtTreeSet.mem_union_iff.mpr (Or.inl h'))
      constructor
      · refine List.nodup_append.mpr ⟨hl, hn, fun a ha b hb e => ?_⟩
        exact hout b hb (e ▸ hs a ha)
      · intro x hx
        exact (List.mem_append.mp hx).imp id (hout x)

/-- **The search ends because nothing new is left.** If every item there
can be is seen or one of `bound` others, then a step from an item that is
found leads to one that is seen or found. -/
theorem next_mem_explore {next : α → List α} {bound : Nat}
    {seen : OrdSet α} {layer others : List α} {P : α → Prop}
    (hl : ∀ x ∈ layer, P x) (hP : ∀ x, P x → ∀ y ∈ next x, P y)
    (ho : ∀ x, P x → x ∈ seen ∨ x ∈ others)
    (hb : (others.filter fun x => x ∉ seen).length ≤ bound) :
    ∀ x ∈ explore next bound seen layer, ∀ y ∈ next x,
      y ∈ seen ∨ y ∈ explore next bound seen layer := by
  induction bound generalizing seen layer with
  | zero =>
    intro x hx y hy
    refine Or.inl ((ho y (hP x (hl x hx) y hy)).elim id fun hm => ?_)
    have hnil := List.eq_nil_of_length_eq_zero (Nat.le_zero.mp hb)
    have := List.filter_eq_nil_iff.mp hnil y hm
    simpa using this
  | succ bound ih =>
    rw [explore]
    split
    · next hf =>
      intro x hx y hy
      refine Or.inl (Decidable.byContradiction fun hy' => ?_)
      have : y ∈ fresh seen (layer.flatMap next) :=
        mem_fresh.mpr ⟨List.mem_flatMap.mpr ⟨x, hx, hy⟩, hy'⟩
      rw [hf] at this
      exact absurd this List.not_mem_nil
    · next z zs hf =>
      have hnew : ∀ x, x ∈ z :: zs ↔ x ∈ layer.flatMap next ∧ x ∉ seen :=
        fun x => by rw [← hf, mem_fresh]
      have hPnew : ∀ x ∈ z :: zs, P x := fun x hx => by
        obtain ⟨w, hw, hx⟩ := List.mem_flatMap.mp ((hnew x).mp hx).1
        exact hP w (hl w hw) x hx
      have hmem : ∀ x, x ∈ seen ∪ OrdSet.ofList (z :: zs) ↔
          x ∈ seen ∨ x ∈ z :: zs := fun x => by
        rw [Std.ExtTreeSet.mem_union_iff, OrdSet.mem_ofList]
      have hz := (hnew z).mp List.mem_cons_self
      have hzo : z ∈ others :=
        (ho z (hPnew z List.mem_cons_self)).resolve_left hz.2
      have hless : (others.filter fun x =>
          x ∉ seen ∪ OrdSet.ofList (z :: zs)).length ≤ bound := by
        have hsub : (others.filter fun x =>
            x ∉ seen ∪ OrdSet.ofList (z :: zs)) =
            (others.filter fun x => x ∉ seen).filter
              fun x => x ∉ z :: zs := by
          rw [List.filter_filter]
          refine List.filter_congr fun x _ => ?_
          simp [hmem, and_comm]
        have hlt := List.length_filter_lt_length_iff_exists
          (l := others.filter fun x => x ∉ seen)
          (p := fun x => x ∉ z :: zs) |>.mpr
          ⟨z, by simpa using ⟨hzo, hz.2⟩, by simp⟩
        rw [← hsub] at hlt
        exact Nat.le_of_lt_succ (Nat.lt_of_lt_of_le hlt hb)
      have hrest := @ih (seen ∪ OrdSet.ofList (z :: zs)) (z :: zs) hPnew
        (fun x hx => by
          rw [hmem]
          exact (ho x hx).imp Or.inl id) hless
      intro x hx y hy
      rw [List.mem_append]
      rcases List.mem_append.mp hx with hx | hx
      · by_cases hy' : y ∈ seen
        · exact Or.inl hy'
        · refine Or.inr (Or.inr (mem_explore_of_mem ((hnew y).mpr ⟨?_, hy'⟩)))
          exact List.mem_flatMap.mpr ⟨x, hx, hy⟩
      · rcases hrest x hx y hy with h | h
        · rcases (hmem y).mp h with h | h
          · exact Or.inl h
          · exact Or.inr (Or.inr (mem_explore_of_mem h))
        · exact Or.inr (Or.inr h)

/-! ## The whole search -/

theorem mem_discover_of_mem {bound : Nat} {next : α → List α}
    {starts : List α} {x : α} (h : x ∈ starts) :
    x ∈ discover bound next starts :=
  mem_explore_of_mem (mem_fresh.mpr ⟨h, by simp⟩)

/-- **The first item is listed first.** -/
theorem head?_discover (bound : Nat) (next : α → List α) (x : α)
    (xs : List α) : (discover bound next (x :: xs)).head? = some x := by
  have hf : (fresh ∅ (x :: xs)).head? = some x := by simp [fresh]
  rw [discover, head?_explore, hf]
  exact fun h => by rw [h] at hf; exact absurd hf nofun

/-- **No item is listed twice.** -/
theorem nodup_discover (bound : Nat) (next : α → List α)
    (starts : List α) : (discover bound next starts).Nodup :=
  (nodup_explore (nodup_fresh ∅ starts) fun _ hx =>
    OrdSet.mem_ofList.mpr (mem_fresh.mp hx).1).1

/-- **Every item listed is reachable.** -/
theorem reachable_of_mem_discover {bound : Nat} {next : α → List α}
    {starts : List α} {x : α} (h : x ∈ discover bound next starts) :
    Reachable next starts x :=
  reachable_of_mem_explore (fun _ hx => .start (mem_fresh.mp hx).1) x h

/-- **The items listed are the reachable ones**, if there are no more
than `bound` of them besides the first. -/
theorem mem_discover_iff {bound : Nat} {next : α → List α}
    {starts others : List α} {x : α}
    (ho : ∀ x, Reachable next starts x → x ∈ starts ∨ x ∈ others)
    (hb : others.length ≤ bound) :
    x ∈ discover bound next starts ↔ Reachable next starts x := by
  refine ⟨reachable_of_mem_discover, fun h => ?_⟩
  have hclosed : ∀ x ∈ discover bound next starts, ∀ y ∈ next x,
      y ∈ OrdSet.ofList starts ∨ y ∈ discover bound next starts :=
    next_mem_explore (P := Reachable next starts)
      (fun _ hx => .start (mem_fresh.mp hx).1)
      (fun _ hx _ hy => .step hx hy)
      (fun _ hx => (ho _ hx).imp OrdSet.mem_ofList.mpr id)
      (Nat.le_trans (List.length_filter_le ..) hb)
  induction h with
  | start h => exact mem_discover_of_mem h
  | step _ hy ih =>
    rcases hclosed _ ih _ hy with h | h
    · exact mem_discover_of_mem (OrdSet.mem_ofList.mp h)
    · exact h

end Recognizer
