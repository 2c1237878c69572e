import Mathlib.Logic.Relation
import Recognizer.NFA.Path
import Recognizer.NFA.Worklist
import Recognizer.Proofs.Determinization
import Recognizer.Proofs.Worklist

/-!
# The closure is what silent steps reach

A silent transition may lead back to where it came from, several may lead to one
state, and the ids to close need not be states at all. Whatever the automaton
looks like, the stack of the closure runs empty, and by then the states found
are those that silent steps lead to from the given ids, none of them missing and
none of them without a reason (`NFA.exists_mem_eval_closingTurn`).

That is the least set with the given ids that silent transitions do not leave
(`NFA.mem_of_mem_silentClosure`), and all laws of the closure follow from it. To
close twice is to close once, a larger set has a larger closure, and as a silent
step leads from one state, a union is closed part by part. A move also leads
from one state, so that a symbol is consumed part by part as well.
-/

namespace Recognizer

open StateTransition (eval)

/-- Reachability from one item is the reflexive transitive closure of a step. -/
theorem Reachable.singleton_iff_reflTransGen {α : Type} {next : α → List α}
    {x y : α} :
    Reachable next [x] y ↔
      Relation.ReflTransGen (fun x y => y ∈ next x) x y := by
  constructor
  · intro h
    induction h with
    | start h => rw [List.mem_singleton.mp h]
    | step _ hy ih => exact ih.tail hy
  · intro h
    induction h with
    | refl => exact .start List.mem_cons_self
    | tail _ hy ih => exact .step ih hy

namespace NFA

variable {α : Type} [LinearOrd α] {A : NFA α} {S T : States} {q r : State}

/-- **A silent step** from one state to another. -/
def SilentStep (A : NFA α) (q r : State) : Prop :=
  ⟨q, .silent, r⟩ ∈ A.edges

/-! ## What the stack finds -/

/-- What silent transitions lead to is among the ids they start from and the
states. -/
theorem mem_of_reachable_silentTargets (hA : A.WellFormed) {qs : List State}
    (h : Reachable A.silentTargets qs r) : r ∈ qs ++ A.states.toList := by
  rw [List.mem_append, Std.ExtTreeSet.mem_toList]
  cases h with
  | start h => exact Or.inl h
  | step _ h => exact Or.inr (hA.target_mem _ (mem_silentTargets.mp h))

/-- **The stack runs empty**, every state found was popped once, and the states
found are the closure. -/
theorem exists_mem_eval_closingTurn (hA : A.WellFormed) (T : States) :
    ∃ s, s ∈ eval A.closingTurn (.start .stack T.toList) ∧ s.pending = [] ∧
      s.popped.Nodup ∧ (∀ q, q ∈ s.popped ↔ q ∈ s.found) ∧
      s.found = A.silentClosure T := by
  obtain ⟨s, hs, hsound⟩ := Search.exists_mem_eval_start (d := .stack)
    T.nodup_toList fun q hq => mem_of_reachable_silentTargets hA hq
  have hpending := Search.pending_of_mem_eval hs
  refine ⟨s, hs, hpending, hsound.nodup_popped,
    fun q => hsound.mem_popped_iff hpending, Std.ExtTreeSet.ext_mem fun q => ?_⟩
  rw [hsound.mem_found_iff_reachable hpending, mem_silentClosure_iff hA]

/-! ## The least closed set -/

/-- The closure holds what silent steps lead to. -/
theorem mem_silentClosure_iff_silentStep (hA : A.WellFormed) :
    r ∈ A.silentClosure T ↔
      ∃ q ∈ T, Relation.ReflTransGen A.SilentStep q r := by
  rw [mem_silentClosure_iff hA, Reachable.iff_exists]
  simp only [Std.ExtTreeSet.mem_toList, Reachable.singleton_iff_reflTransGen,
    mem_silentTargets]
  rfl

/-- **The closure is in every closed set** that holds what is closed. -/
theorem mem_of_mem_silentClosure (hA : A.WellFormed) (hT : ∀ q ∈ T, q ∈ S)
    (hS : A.SilentlyClosed S) (h : q ∈ A.silentClosure T) : q ∈ S := by
  rw [mem_silentClosure_iff hA] at h
  induction h with
  | start h => exact hT _ (Std.ExtTreeSet.mem_toList.mp h)
  | step _ h ih => exact hS _ ih _ (mem_silentTargets.mp h)

/-- A larger set has a larger closure. -/
theorem silentClosure_mono (hA : A.WellFormed) (h : ∀ q ∈ S, q ∈ T)
    (hq : q ∈ A.silentClosure S) : q ∈ A.silentClosure T :=
  mem_of_mem_silentClosure hA (fun q hq => subset_silentClosure (h q hq))
    (silentlyClosed_silentClosure hA T) hq

/-- Nothing is added to a closed set. -/
theorem silentClosure_eq_self (hA : A.WellFormed) (hS : A.SilentlyClosed S) :
    A.silentClosure S = S :=
  Std.ExtTreeSet.ext_mem fun _ =>
    ⟨mem_of_mem_silentClosure hA (fun _ hq => hq) hS, subset_silentClosure⟩

/-! ## Part by part -/

/-- **A union is closed part by part.** -/
theorem silentClosure_union (hA : A.WellFormed) (S T : States) :
    A.silentClosure (S ∪ T) = A.silentClosure S ∪ A.silentClosure T :=
  Std.ExtTreeSet.ext_mem fun {r} => by
    simp only [Std.ExtTreeSet.mem_union_iff,
      mem_silentClosure_iff_silentStep hA, or_and_right, exists_or]

/-- A union moves part by part. -/
theorem move_union (A : NFA α) (S T : States) (a : α) :
    A.move (S ∪ T) a = A.move S a ∪ A.move T a :=
  Std.ExtTreeSet.ext_mem fun {r} => by
    simp only [Std.ExtTreeSet.mem_union_iff, mem_move_iff, or_and_right,
      exists_or]

/-- **A union consumes a symbol part by part.** -/
theorem consume_union (hA : A.WellFormed) (S T : States) (a : α) :
    A.consume (S ∪ T) a = A.consume S a ∪ A.consume T a := by
  unfold consume
  rw [silentClosure_union hA, move_union, silentClosure_union hA]

/-- **The closure is exact, whatever is closed.**

From any set of ids the stack runs empty and leaves the closure. The closure
holds what silent steps lead to from the ids, none or several of them, which is
the least set that holds the ids and that silent transitions do not leave. It is
closed already, it grows with what is closed, and a union is closed and consumes
a symbol part by part. -/
theorem silentClosure_is_exact (hA : A.WellFormed) :
    (∀ T : States, ∃ s, s ∈ eval A.closingTurn (.start .stack T.toList) ∧
      s.pending = [] ∧ s.found = A.silentClosure T) ∧
    (∀ (T : States) (r : State), r ∈ A.silentClosure T ↔
      ∃ q ∈ T, Relation.ReflTransGen A.SilentStep q r) ∧
    (∀ T : States, (∀ q ∈ T, q ∈ A.silentClosure T) ∧
      A.SilentlyClosed (A.silentClosure T) ∧
      ∀ S : States, (∀ q ∈ T, q ∈ S) → A.SilentlyClosed S →
        ∀ q ∈ A.silentClosure T, q ∈ S) ∧
    (∀ T : States,
      A.silentClosure (A.silentClosure T) = A.silentClosure T) ∧
    (∀ S T : States, (∀ q ∈ S, q ∈ T) →
      ∀ q ∈ A.silentClosure S, q ∈ A.silentClosure T) ∧
    (∀ S T : States,
      A.silentClosure (S ∪ T) = A.silentClosure S ∪ A.silentClosure T) ∧
    ∀ (S T : States) (a : α),
      A.consume (S ∪ T) a = A.consume S a ∪ A.consume T a := by
  have hclosed := silentlyClosed_silentClosure hA
  refine ⟨fun T => ?_, fun T r => mem_silentClosure_iff_silentStep hA,
    fun T => ⟨fun q => subset_silentClosure, hclosed T,
      fun S hT hS q => mem_of_mem_silentClosure hA hT hS⟩,
    fun T => silentClosure_eq_self hA (hclosed T),
    fun S T h q => silentClosure_mono hA h, silentClosure_union hA,
    consume_union hA⟩
  obtain ⟨s, hs, hpending, -, -, hfound⟩ := exists_mem_eval_closingTurn hA T
  exact ⟨s, hs, hpending, hfound⟩

/-- A state on a silent cycle is closed together with an id that is no state. -/
theorem silentClosure_is_exact_roundabout :
    roundabout.WellFormed ∧
      (∃ s, s ∈ eval roundabout.closingTurn (.start .stack [9, 42]) ∧
        s.pending = [] ∧ s.found = OrdSet.ofList [7, 9, 42]) ∧
      (∃ q ∈ (OrdSet.ofList [9, 42] : States),
        Relation.ReflTransGen roundabout.SilentStep q 7) ∧
      roundabout.silentClosure (OrdSet.ofList [7, 9, 42])
        = OrdSet.ofList [7, 9, 42] ∧
      roundabout.consume (OrdSet.ofList [7] ∪ OrdSet.ofList [42]) '0'
        = roundabout.consume (OrdSet.ofList [7]) '0'
          ∪ roundabout.consume (OrdSet.ofList [42]) '0' := by
  have hclosure : roundabout.silentClosure (OrdSet.ofList [9, 42])
      = OrdSet.ofList [7, 9, 42] := by decide
  obtain ⟨hrun, hmem, -, hidem, -, -, hconsume⟩ :=
    silentClosure_is_exact wellFormed_roundabout
  refine ⟨wellFormed_roundabout, ?_, (hmem _ 7).mp ?_, ?_, hconsume _ _ '0'⟩
  · have h := hrun (OrdSet.ofList [9, 42])
    rwa [hclosure] at h
  · rw [hclosure]
    decide
  · rw [← hclosure, hidem]

end NFA

end Recognizer
