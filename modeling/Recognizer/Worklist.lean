import Recognizer.Discovery

/-!
# Worklists

A search need not go by layers. It can look at one item at a time, and keep
beside what it has found a list of what it has found and not yet looked at. A
turn pops an item from that list and takes in all that the item leads to: what
was found before is passed over, and anything else is found and pending from
then on (`Search.turn`). There is no further turn when nothing is pending.

Nothing in this counts the turns, so that a search may go on for ever. It is
run to its end, if it has one, as any system of states and steps is
(`StateTransition.eval`).

Which of the pending items is popped is the discipline of the worklist. On a
stack it is the item that was added last, in a queue the one that has waited
longest.
-/

namespace Recognizer

/-- **Where a worklist is added to.** The next item to be popped always stands
first. -/
inductive Discipline where
  | stack
  | queue
  deriving DecidableEq

/-- One more pending item. -/
def Discipline.add {α : Type} : Discipline → List α → α → List α
  | stack, xs, x => x :: xs
  | queue, xs, x => xs ++ [x]

/-- **A search under way.** -/
structure Search (α : Type) [LinearOrd α] where
  found : OrdSet α
  /-- What was found and not popped, the next item first. -/
  pending : List α
  /-- What was popped, in order. -/
  popped : List α
  deriving DecidableEq

namespace Search

variable {α : Type} [LinearOrd α]

/-- Takes in an item, unless it was found before. -/
def takeIn (d : Discipline) (s : Search α) (x : α) : Search α :=
  if x ∈ s.found then s
  else { s with found := s.found.insert x, pending := d.add s.pending x }

/-- Some items are found, and none of them has been popped. -/
def start (d : Discipline) (xs : List α) : Search α where
  found := OrdSet.ofList xs
  pending := xs.foldl d.add []
  popped := []

/-- **One turn**: an item is popped, and what it leads to is taken in. -/
def turn (d : Discipline) (next : α → List α) (s : Search α) :
    Option (Search α) :=
  match s.pending with
  | [] => none
  | x :: rest => some ((next x).foldl (takeIn d)
      { s with pending := rest, popped := s.popped ++ [x] })

/-- All that was found: what was popped, in order, and what is pending. -/
def listed (s : Search α) : List α := s.popped ++ s.pending

/-! ## What a turn does -/

omit [LinearOrd α] in
/-- Pending items are added to and never lost. -/
theorem perm_foldl_add (d : Discipline) (xs ys : List α) :
    (ys.foldl d.add xs).Perm (xs ++ ys) := by
  have hadd : ∀ (xs : List α) (y : α), (d.add xs y).Perm (xs ++ [y]) := by
    intro xs y
    cases d with
    | stack => exact (List.perm_append_singleton y xs).symm
    | queue => exact .refl _
  induction ys generalizing xs with
  | nil => rw [List.foldl_nil, List.append_nil]
  | cons y ys ih =>
    rw [List.foldl_cons, List.append_cons]
    exact (ih _).trans ((hadd xs y).append_right ys)

omit [LinearOrd α] in
/-- A queue is added to at its end. -/
@[simp] theorem foldl_add_queue (xs ys : List α) :
    ys.foldl Discipline.queue.add xs = xs ++ ys := by
  induction ys generalizing xs with
  | nil => exact (List.append_nil xs).symm
  | cons y ys ih =>
    rw [List.foldl_cons, ih, List.append_cons]
    rfl

/-- **Several items are taken in at their first occurrences**, as far as they
were not found before. -/
theorem foldl_takeIn (d : Discipline) (s : Search α) (xs : List α) :
    xs.foldl (takeIn d) s =
      { s with
        found := s.found ∪ OrdSet.ofList xs
        pending := (fresh s.found xs).foldl d.add s.pending } := by
  induction xs generalizing s with
  | nil =>
    have hfound : s.found ∪ OrdSet.ofList [] = s.found :=
      Std.ExtTreeSet.ext_mem fun x => by simp [Std.ExtTreeSet.mem_union_iff]
    rw [hfound]
    rfl
  | cons x xs ih =>
    rw [List.foldl_cons, ih, takeIn, fresh]
    split
    · next hx =>
      have hfound : s.found ∪ OrdSet.ofList xs
          = s.found ∪ OrdSet.ofList (x :: xs) :=
        Std.ExtTreeSet.ext_mem fun y => by
          simp only [Std.ExtTreeSet.mem_union_iff, OrdSet.mem_ofList,
            List.mem_cons]
          by_cases hy : y = x <;> simp [hy, hx]
      rw [hfound]
    · have hfound : s.found.insert x ∪ OrdSet.ofList xs
          = s.found ∪ OrdSet.ofList (x :: xs) :=
        Std.ExtTreeSet.ext_mem fun y => by
          simp only [Std.ExtTreeSet.mem_union_iff, OrdSet.mem_insert,
            OrdSet.mem_ofList, List.mem_cons]
          rw [or_assoc, or_left_comm]
      rw [hfound]
      rfl

@[simp] theorem turn_eq_none_iff {d : Discipline} {next : α → List α}
    {s : Search α} : s.turn d next = none ↔ s.pending = [] := by
  unfold turn
  split <;> simp_all

/-- **What is popped is the first pending item**, and what it leads to is taken
in. -/
theorem turn_eq_some_iff_foldl {d : Discipline} {next : α → List α}
    {s t : Search α} :
    s.turn d next = some t ↔ ∃ x rest, s.pending = x :: rest ∧
      t = (next x).foldl (takeIn d)
        { s with pending := rest, popped := s.popped ++ [x] } := by
  unfold turn
  split
  · next h => simp [h]
  · next x rest h =>
    rw [h, Option.some.injEq]
    constructor
    · rintro rfl
      exact ⟨x, rest, rfl, rfl⟩
    · rintro ⟨_, _, ⟨⟩, rfl⟩
      rfl

/-- What an item leads to and was not found before is found and pending. -/
theorem turn_eq_some_iff {d : Discipline} {next : α → List α}
    {s t : Search α} :
    s.turn d next = some t ↔ ∃ x rest, s.pending = x :: rest ∧
      t = { found := s.found ∪ OrdSet.ofList (next x)
            pending := (fresh s.found (next x)).foldl d.add rest
            popped := s.popped ++ [x] } := by
  simp only [turn_eq_some_iff_foldl, foldl_takeIn]

end Search

end Recognizer
