import Recognizer.Text.Symbol

/-!
# Regular expressions as trees

A regular expression is a tree over the symbols of an alphabet:
literals at the leaves, sequences and choices of any number of items,
the star, and groups, which mean what they hold and exist because a
pattern shows them.

Nothing here restricts a tree to what a pattern can spell: a sequence
may hold one item or none, and a choice may hold choices. Two measures
matter for limits, and they differ on an empty sequence: `height` counts
the node itself as one level, `depth` counts only levels that hold a
node.
-/

namespace Recognizer

/-- **A regular expression over symbols of type `α`.** -/
inductive Regex (α : Type) where
  /-- One symbol. -/
  | literal (symbol : α)
  /-- The items one after the other. -/
  | sequence (items : List (Regex α))
  /-- Any one of the items. -/
  | choice (items : List (Regex α))
  /-- Any number of repetitions. -/
  | star (inner : Regex α)
  /-- What stands between a pair of parentheses. -/
  | group (inner : Regex α)

namespace Regex

variable {α : Type}

/-- **Induction over a tree**, with the hypothesis for every item of a
sequence or a choice. -/
@[elab_as_elim]
theorem induction {P : Regex α → Prop} (literal : ∀ a, P (.literal a))
    (sequence : ∀ ts, (∀ t ∈ ts, P t) → P (.sequence ts))
    (choice : ∀ ts, (∀ t ∈ ts, P t) → P (.choice ts))
    (star : ∀ t, P t → P (.star t)) (group : ∀ t, P t → P (.group t)) :
    ∀ t, P t
  | .literal a => literal a
  | .sequence ts => sequence ts fun t _ =>
    induction literal sequence choice star group t
  | .choice ts => choice ts fun t _ =>
    induction literal sequence choice star group t
  | .star t => star t (induction literal sequence choice star group t)
  | .group t => group t (induction literal sequence choice star group t)

/-! ## Measures -/

mutual

/-- The height of a tree: none for a literal, one more than the tallest
child for every other node, children or not. -/
def height : Regex α → Nat
  | literal _ => 0
  | sequence ts => heightOfItems ts + 1
  | choice ts => heightOfItems ts + 1
  | star t => t.height + 1
  | group t => t.height + 1

/-- The height of the tallest item. -/
def heightOfItems : List (Regex α) → Nat
  | [] => 0
  | t :: ts => max t.height (heightOfItems ts)

end

mutual

/-- The depth of the deepest node, the root having depth none. -/
def depth : Regex α → Nat
  | literal _ => 0
  | sequence ts => depthOfItems ts
  | choice ts => depthOfItems ts
  | star t => t.depth + 1
  | group t => t.depth + 1

/-- The depth of the deepest node under a node with these items. -/
def depthOfItems : List (Regex α) → Nat
  | [] => 0
  | t :: ts => max (t.depth + 1) (depthOfItems ts)

end

theorem height_le_heightOfItems {t : Regex α} {ts : List (Regex α)}
    (h : t ∈ ts) : t.height ≤ heightOfItems ts := by
  induction ts with
  | nil => simp at h
  | cons u us ih =>
    rw [heightOfItems]
    rcases List.mem_cons.mp h with rfl | h
    · exact Nat.le_max_left ..
    · exact Nat.le_trans (ih h) (Nat.le_max_right ..)

mutual

/-- A node is never deeper than the tree is high. -/
theorem depth_le_height : ∀ t : Regex α, t.depth ≤ t.height
  | literal _ => Nat.le_refl _
  | sequence ts => by rw [depth, height]; exact depthOfItems_le ts
  | choice ts => by rw [depth, height]; exact depthOfItems_le ts
  | star t => by rw [depth, height]; exact Nat.succ_le_succ t.depth_le_height
  | group t => by rw [depth, height]; exact Nat.succ_le_succ t.depth_le_height

theorem depthOfItems_le :
    ∀ ts : List (Regex α), depthOfItems ts ≤ heightOfItems ts + 1
  | [] => Nat.zero_le _
  | t :: ts => by
    have := t.depth_le_height
    have := depthOfItems_le ts
    rw [depthOfItems, heightOfItems]
    omega

end

/-! ## Literals -/

mutual

/-- **The symbols at the leaves, from left to right.** -/
def leaves : Regex α → List α
  | literal a => [a]
  | sequence ts => leavesOfItems ts
  | choice ts => leavesOfItems ts
  | star t => t.leaves
  | group t => t.leaves

/-- The symbols at the leaves of the items, one item after the other. -/
def leavesOfItems : List (Regex α) → List α
  | [] => []
  | t :: ts => t.leaves ++ leavesOfItems ts

end

theorem leavesOfItems_eq_flatMap (ts : List (Regex α)) :
    leavesOfItems ts = ts.flatMap leaves := by
  induction ts with
  | nil => rfl
  | cons t ts ih => rw [leavesOfItems, ih, List.flatMap_cons]

/-- The symbols of an item are among those of the items. -/
theorem leaves_subset_leavesOfItems {t : Regex α} {ts : List (Regex α)}
    (h : t ∈ ts) : t.leaves ⊆ leavesOfItems ts := by
  rw [leavesOfItems_eq_flatMap]
  exact fun a ha => List.mem_flatMap.mpr ⟨t, h, ha⟩

theorem leavesOfItems_append (ts us : List (Regex α)) :
    leavesOfItems (ts ++ us) = leavesOfItems ts ++ leavesOfItems us := by
  simp only [leavesOfItems_eq_flatMap, List.flatMap_append]

theorem sizeOf_append (ts us : List (Regex α)) :
    sizeOf (ts ++ us) + 1 = sizeOf ts + sizeOf us := by
  induction ts with
  | nil => exact Nat.add_comm ..
  | cons t ts ih =>
    simp only [List.cons_append, List.cons.sizeOf_spec]
    omega

/-- **The symbols at the leaves, collected with a stack** of trees that are
still to be visited, so that a deep tree needs no deep recursion. -/
def visit : List (Regex α) → List α
  | [] => []
  | literal a :: pending => a :: visit pending
  | sequence ts :: pending => visit (ts ++ pending)
  | choice ts :: pending => visit (ts ++ pending)
  | star t :: pending => visit (t :: pending)
  | group t :: pending => visit (t :: pending)
termination_by pending => sizeOf pending
decreasing_by
  all_goals simp only [List.cons.sizeOf_spec, literal.sizeOf_spec,
    sequence.sizeOf_spec, choice.sizeOf_spec, star.sizeOf_spec,
    group.sizeOf_spec]
  · omega
  · have := sizeOf_append ts pending
    omega
  · have := sizeOf_append ts pending
    omega
  · omega
  · omega

/-- **The stack is visited from left to right.** -/
theorem visit_eq_leavesOfItems (pending : List (Regex α)) :
    visit pending = leavesOfItems pending := by
  induction pending using visit.induct with
  | case1 => rw [visit, leavesOfItems]
  | case2 a pending ih => rw [visit, ih, leavesOfItems, leaves]; rfl
  | case3 ts pending ih =>
    rw [visit, ih, leavesOfItems_append, leavesOfItems, leaves]
  | case4 ts pending ih =>
    rw [visit, ih, leavesOfItems_append, leavesOfItems, leaves]
  | case5 t pending ih => rw [visit, ih, leavesOfItems, leavesOfItems, leaves]
  | case6 t pending ih => rw [visit, ih, leavesOfItems, leavesOfItems, leaves]

/-- The symbols at the leaves of a tree, as the stack collects them. -/
def literals (t : Regex α) : List α := visit [t]

theorem literals_eq_leaves (t : Regex α) : t.literals = t.leaves := by
  rw [literals, visit_eq_leavesOfItems, leavesOfItems_eq_flatMap,
    List.flatMap_singleton]

/-! ## Equality -/

mutual

/-- Whether two trees are the same, node for node. -/
def beq [DecidableEq α] : Regex α → Regex α → Bool
  | literal a, literal b => a = b
  | sequence ts, sequence us => beqItems ts us
  | choice ts, choice us => beqItems ts us
  | star t, star u => t.beq u
  | group t, group u => t.beq u
  | _, _ => false

/-- Whether two lists hold the same trees in the same order. -/
def beqItems [DecidableEq α] : List (Regex α) → List (Regex α) → Bool
  | [], [] => true
  | t :: ts, u :: us => t.beq u && beqItems ts us
  | _, _ => false

end

mutual

theorem beq_iff [DecidableEq α] :
    ∀ t u : Regex α, t.beq u = true ↔ t = u
  | literal a, u => by cases u <;> simp [beq]
  | sequence ts, u => by
    cases u <;> simp [beq]
    exact beqItems_iff ts _
  | choice ts, u => by
    cases u <;> simp [beq]
    exact beqItems_iff ts _
  | star t, u => by
    cases u <;> simp [beq]
    exact beq_iff t _
  | group t, u => by
    cases u <;> simp [beq]
    exact beq_iff t _

theorem beqItems_iff [DecidableEq α] :
    ∀ ts us : List (Regex α), beqItems ts us = true ↔ ts = us
  | [], us => by cases us <;> simp [beqItems]
  | t :: ts, us => by
    cases us with
    | nil => simp [beqItems]
    | cons u us => simp [beqItems, beq_iff t u, beqItems_iff ts us]

end

instance [DecidableEq α] : DecidableEq (Regex α) := fun t u =>
  decidable_of_iff _ (beq_iff t u)

end Regex

end Recognizer
