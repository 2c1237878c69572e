import Mathlib.Computability.StateTransition
import Recognizer.Proofs.Discovery
import Recognizer.Worklist

/-!
# A worklist comes to its end

The state of a search with a worklist has three parts that grow and shrink at
different times, and what holds of it between two turns ties them together
(`Search.Sound`). Everything that was found was either popped or is pending, and
never both or twice, because an item is added to the worklist at the moment it
is found. What a popped item leads to has been found. Nothing is found that
cannot be reached.

So no item is popped twice. Where only finitely many items can be reached, there
are no more turns than items, and at the end, when nothing is pending, the items
found are those popped and those that can be reached
(`Search.exists_mem_eval_start`). This holds of a stack as well as of a queue.

A queue moreover pops items in the order in which they were found. By the time
it has popped all that was pending at some moment, pending is the next layer. So
it lists items in the same order as the search by layers
(`Search.popped_eq_discover`).
-/

namespace Recognizer

open StateTransition (Reaches eval mem_eval reaches_eval)

/-- **A system comes to its end** if a number decreases at every step, as long
as a condition holds which no step breaks. -/
theorem exists_mem_eval_of_measure {σ : Type} {step : σ → Option σ}
    {P : σ → Prop} (m : σ → Nat)
    (h : ∀ s t, P s → step s = some t → P t ∧ m t < m s) {s : σ} (hs : P s) :
    ∃ t, t ∈ eval step s ∧ P t := by
  induction hm : m s using Nat.strongRecOn generalizing s with
  | ind n ih =>
    cases ht : step s with
    | none => exact ⟨s, mem_eval.mpr ⟨.refl, ht⟩, hs⟩
    | some t =>
      obtain ⟨hP, hlt⟩ := h s t hs ht
      obtain ⟨u, hu, hPu⟩ := ih (m t) (hm ▸ hlt) hP rfl
      refine ⟨u, ?_, hPu⟩
      rwa [reaches_eval (.single ht)]

namespace Search

variable {α : Type} [LinearOrd α] {d : Discipline} {next : α → List α}
  {starts : List α} {s t u : Search α}

/-! ## Between two turns -/

/-- **The parts of a search fit together.** -/
structure Sound (next : α → List α) (starts : List α) (s : Search α) :
    Prop where
  nodup : s.listed.Nodup
  mem_found_iff : ∀ x, x ∈ s.found ↔ x ∈ s.listed
  start_mem : ∀ x ∈ starts, x ∈ s.found
  next_mem : ∀ x ∈ s.popped, ∀ y ∈ next x, y ∈ s.found
  reachable : ∀ x ∈ s.found, Reachable next starts x

theorem sound_start (h : starts.Nodup) :
    (start d starts).Sound next starts where
  nodup := (perm_foldl_add d [] starts).nodup_iff.mpr h
  mem_found_iff x := by
    rw [start, OrdSet.mem_ofList]
    exact (perm_foldl_add d [] starts).mem_iff.symm
  start_mem x hx := OrdSet.mem_ofList.mpr hx
  next_mem x hx := absurd hx List.not_mem_nil
  reachable x hx := .start (OrdSet.mem_ofList.mp hx)

/-- **A turn adds what is new** to what is listed, and the item popped stays
listed. -/
theorem perm_listed_of_turn (h : s.turn d next = some t) :
    ∃ x rest, s.pending = x :: rest ∧ t.popped = s.popped ++ [x] ∧
      t.found = s.found ∪ OrdSet.ofList (next x) ∧
      t.listed.Perm (s.listed ++ fresh s.found (next x)) := by
  obtain ⟨x, rest, hpending, rfl⟩ := turn_eq_some_iff.mp h
  refine ⟨x, rest, hpending, rfl, rfl, ?_⟩
  rw [listed, listed, hpending, List.append_assoc, List.append_assoc]
  exact ((perm_foldl_add d rest _).cons x).append_left s.popped

/-- **A turn keeps the parts together.** -/
theorem Sound.turn (hs : s.Sound next starts) (h : s.turn d next = some t) :
    t.Sound next starts := by
  obtain ⟨x, rest, hpending, hpopped, hfound, hlisted⟩ := perm_listed_of_turn h
  have hx : x ∈ s.found := (hs.mem_found_iff x).mpr
    (List.mem_append.mpr (Or.inr (hpending ▸ List.mem_cons_self)))
  have hmem : ∀ y, y ∈ t.found ↔ y ∈ s.found ∨ y ∈ next x := fun y => by
    rw [hfound, Std.ExtTreeSet.mem_union_iff, OrdSet.mem_ofList]
  refine ⟨?_, fun y => ?_,
    fun y hy => (hmem y).mpr (Or.inl (hs.start_mem y hy)),
    fun y hy z hz => ?_, fun y hy => ?_⟩
  · refine hlisted.nodup_iff.mpr (List.nodup_append.mpr
      ⟨hs.nodup, nodup_fresh _ _, fun y hy z hz e => ?_⟩)
    -- what is new was not found before
    exact (mem_fresh.mp hz).2 ((hs.mem_found_iff z).mpr (e ▸ hy))
  · rw [hmem, hlisted.mem_iff, List.mem_append, mem_fresh, ← hs.mem_found_iff]
    by_cases hy : y ∈ s.found <;> simp [hy]
  · rw [hpopped, List.mem_append, List.mem_singleton] at hy
    rcases hy with hy | rfl
    · exact (hmem z).mpr (Or.inl (hs.next_mem y hy z hz))
    · exact (hmem z).mpr (Or.inr hz)
  · rcases (hmem y).mp hy with hy | hy
    · exact hs.reachable y hy
    · exact .step (hs.reachable x hx) hy

/-! ## The end -/

/-- **The search comes to its end**, where the items that can be reached are
among the items of a list: every turn pops another one. -/
theorem exists_mem_eval_start (h : starts.Nodup) {all : List α}
    (hall : ∀ x, Reachable next starts x → x ∈ all) :
    ∃ s, s ∈ eval (turn d next) (start d starts) ∧ s.Sound next starts := by
  refine exists_mem_eval_of_measure (P := Sound next starts)
    (fun s => all.length - s.popped.length) (fun s t hs ht => ?_)
    (sound_start h)
  have hsound := hs.turn ht
  refine ⟨hsound, ?_⟩
  obtain ⟨x, rest, -, hpopped, -⟩ := perm_listed_of_turn ht
  have hle : t.popped.length ≤ all.length :=
    ((List.nodup_append.mp hsound.nodup).1.subperm fun y hy =>
      hall y (hsound.reachable y ((hsound.mem_found_iff y).mpr
        (List.mem_append.mpr (Or.inl hy))))).length_le
  rw [hpopped, List.length_append, List.length_singleton] at hle ⊢
  omega

/-- At the end nothing is pending. -/
theorem pending_of_mem_eval (h : t ∈ eval (turn d next) s) : t.pending = [] :=
  turn_eq_none_iff.mp (mem_eval.mp h).2

/-- At the end all that is listed was popped. -/
theorem listed_eq_popped (h : s.pending = []) : s.listed = s.popped := by
  rw [listed, h, List.append_nil]

namespace Sound

/-- **What was found was popped once.** -/
theorem nodup_popped (hs : s.Sound next starts) : s.popped.Nodup :=
  (List.nodup_append.mp hs.nodup).1

/-- **At the end all that was found was popped.** -/
theorem mem_popped_iff (hs : s.Sound next starts) (h : s.pending = []) {x : α} :
    x ∈ s.popped ↔ x ∈ s.found := by
  rw [hs.mem_found_iff, listed_eq_popped h]

/-- **At the end all was found that can be reached.** -/
theorem mem_found_iff_reachable (hs : s.Sound next starts) (h : s.pending = [])
    {x : α} : x ∈ s.found ↔ Reachable next starts x := by
  refine ⟨hs.reachable x, fun hx => ?_⟩
  induction hx with
  | start hx => exact hs.start_mem _ hx
  | step _ hy ih =>
    exact hs.next_mem _ ((hs.mem_popped_iff h).mpr ih) _ hy

end Sound

/-! ## The order of a queue -/

/-- A queue lists items in the order in which they were found. -/
theorem listed_foldl_takeIn_queue (s : Search α) (xs : List α) :
    (xs.foldl (takeIn .queue) s).listed = s.listed ++ fresh s.found xs := by
  rw [foldl_takeIn, foldl_add_queue, listed, listed, List.append_assoc]

/-- What was found stays found. -/
theorem mem_found_takeIn {x : α} (y : α) (h : x ∈ s.found) :
    x ∈ (s.takeIn d y).found := by
  unfold takeIn
  split
  · exact h
  · exact OrdSet.mem_insert.mpr (Or.inr h)

/-- What is taken in follows what was listed. -/
theorem listed_prefix_foldl_takeIn (s : Search α) (xs : List α) :
    s.listed <+: (xs.foldl (takeIn .queue) s).listed :=
  ⟨_, (listed_foldl_takeIn_queue s xs).symm⟩

/-- Once popped, an item is still listed in its place. -/
theorem listed_pop {x : α} {rest : List α} (h : s.pending = x :: rest) :
    listed { s with pending := rest, popped := s.popped ++ [x] }
      = s.listed := by
  rw [listed, listed, h, List.append_assoc, List.singleton_append]

/-- **What a queue has listed stays where it is.** -/
theorem listed_prefix_of_reaches (h : Reaches (turn .queue next) s t) :
    s.listed <+: t.listed := by
  induction h with
  | refl => exact List.prefix_rfl
  | @tail t u _ hu ih =>
    obtain ⟨x, rest, hpending, rfl⟩ := turn_eq_some_iff_foldl.mp hu
    rw [← listed_pop hpending] at ih
    exact ih.trans (listed_prefix_foldl_takeIn _ (next x))

/-- **Turn by turn the first pending items are popped**, and what they lead to
follows the others. -/
theorem exists_reaches_of_pending (next : α → List α) {xs ys : List α}
    (h : s.pending = xs ++ ys) :
    ∃ t, Reaches (turn .queue next) s t ∧ t.popped = s.popped ++ xs ∧
      t.pending = ys ++ fresh s.found (xs.flatMap next) ∧
      ∀ x, x ∈ t.found ↔ x ∈ s.found ∨ x ∈ xs.flatMap next := by
  induction xs generalizing s ys with
  | nil => exact ⟨s, .refl, by simp, by simpa [fresh] using h, by simp⟩
  | cons x xs ih =>
    have hturn : s.turn .queue next = some _ :=
      turn_eq_some_iff.mpr ⟨x, xs ++ ys, h, rfl⟩
    rw [foldl_add_queue, List.append_assoc] at hturn
    obtain ⟨t, ht, hpopped, hpending, hfound⟩ := ih (s := { s with
      found := s.found ∪ OrdSet.ofList (next x)
      pending := xs ++ (ys ++ fresh s.found (next x))
      popped := s.popped ++ [x] }) rfl
    refine ⟨t, ht.head hturn, ?_, ?_, fun y => ?_⟩
    · rw [hpopped, List.append_assoc, List.singleton_append]
    · rw [hpending, List.flatMap_cons, fresh_append, List.append_assoc]
    · rw [hfound, Std.ExtTreeSet.mem_union_iff, OrdSet.mem_ofList,
        List.flatMap_cons, List.mem_append, or_assoc]

/-- **A queue goes by layers**: at some time it has listed what the search by
layers finds. -/
theorem exists_reaches_explore (next : α → List α) (bound : Nat)
    (s : Search α) :
    ∃ t, Reaches (turn .queue next) s t ∧
      t.listed = s.popped ++ explore next bound s.found s.pending := by
  induction bound generalizing s with
  | zero => exact ⟨s, .refl, rfl⟩
  | succ bound ih =>
    rw [explore]
    split
    · exact ⟨s, .refl, rfl⟩
    · next y ys hnew =>
      obtain ⟨t, ht, hpopped, hpending, hfound⟩ :=
        exists_reaches_of_pending next (List.append_nil s.pending).symm
      rw [List.nil_append, hnew] at hpending
      have hseen : s.found ∪ OrdSet.ofList (y :: ys) = t.found :=
        Std.ExtTreeSet.ext_mem fun x => by
          rw [hfound, ← hnew, Std.ExtTreeSet.mem_union_iff, OrdSet.mem_ofList,
            mem_fresh]
          by_cases hx : x ∈ s.found <;> simp [hx]
      obtain ⟨u, hu, hlisted⟩ := ih t
      refine ⟨u, ht.trans hu, ?_⟩
      rw [hlisted, hpopped, hpending, hseen, List.append_assoc]

/-- **A queue pops items in the order of the search by layers**, if that goes on
until nothing new is left. -/
theorem popped_eq_discover {bound : Nat} {x : α}
    (h : ∀ y, Reachable next [x] y → y ∈ discover bound next [x])
    (hu : u ∈ eval (turn .queue next) (start .queue [x]))
    (hsound : u.Sound next [x]) : u.popped = discover bound next [x] := by
  obtain ⟨t, ht, hlisted⟩ :=
    exists_reaches_explore next bound (start .queue [x])
  have hdiscover : t.listed = discover bound next [x] := by
    have hfresh : fresh ∅ [x] = [x] := by simp [fresh]
    rw [hlisted, discover, hfresh]
    rfl
  have hpending := pending_of_mem_eval hu
  -- a turn after the other leads from there to the end
  have hbegin : discover bound next [x] <+: u.popped := by
    rw [← hdiscover, ← listed_eq_popped hpending]
    rw [reaches_eval ht] at hu
    exact listed_prefix_of_reaches (mem_eval.mp hu).1
  refine (hbegin.eq_of_length_le ?_).symm
  refine (hsound.nodup_popped.subperm fun y hy => h y ?_).length_le
  exact hsound.reachable y ((hsound.mem_popped_iff hpending).mp hy)

end Search

end Recognizer
