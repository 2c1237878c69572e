import Recognizer.Discovery
import Recognizer.Machine
import Recognizer.NFA.Basic

/-!
# Running a nondeterministic automaton

A run keeps the set of all states the automaton may be in. Silent
transitions are followed as far as they lead (`silentClosure`), a symbol
replaces each state by the states it goes to (`move`), and the next set
of a run is the closure of the move (`nextSet?`). The run starts from
the closure of the start state, so that the set at hand is always
closed.

Main statements: the closure is what silent transitions reach
(`mem_silentClosure_iff`), the move what one symbol reaches
(`mem_move_iff`), and the next set what both reach together
(`mem_nextSet?_iff`).
-/

namespace Recognizer.NFA

variable {α : Type} [LinearOrd α]

/-- Where a state goes silently. -/
def silentTargets (A : NFA α) (q : State) : List State :=
  (A.edges.targets q .silent).toList

/-- **All states that silent transitions lead to**, the given ones
included. -/
def silentClosure (A : NFA α) (S : States) : States :=
  OrdSet.ofList (discover A.size A.silentTargets S.toList)

/-- **The states that a symbol leads to.** -/
def move (A : NFA α) (S : States) (a : α) : States :=
  OrdSet.ofList (S.toList.flatMap fun q =>
    (A.edges.targets q (.symbol a)).toList)

/-- A move between two closures. -/
def consume (A : NFA α) (S : States) (a : α) : States :=
  A.silentClosure (A.move (A.silentClosure S) a)

/-- The set of states a run starts from. -/
def startSet (A : NFA α) : States :=
  A.silentClosure (OrdSet.ofList [A.start])

/-- **The next set of a run.** An empty set of states is a dead end. -/
def nextSet? (A : NFA α) (S : States) (a : α) : Option States :=
  let T := A.silentClosure (A.move S a)
  if T.isEmpty then none else some T

/-- Whether some state of the set accepts. -/
def isFinalSet (A : NFA α) (S : States) : Bool :=
  S.meets A.final

/-! ## What the sets hold -/

@[simp] theorem mem_silentTargets {A : NFA α} {q r : State} :
    r ∈ A.silentTargets q ↔ ⟨q, .silent, r⟩ ∈ A.edges := by
  rw [silentTargets, Std.ExtTreeSet.mem_toList, EdgeSet.mem_targets]

/-- **The closure is what silent transitions reach.** -/
theorem mem_silentClosure_iff {A : NFA α} (hA : A.WellFormed) {S : States}
    {r : State} :
    r ∈ A.silentClosure S ↔ Reachable A.silentTargets S.toList r := by
  have hstates : ∀ x, Reachable A.silentTargets S.toList x →
      x ∈ S.toList ∨ x ∈ A.states.toList := fun x hx => by
    cases hx with
    | start h => exact Or.inl h
    | step _ h =>
      exact Or.inr (Std.ExtTreeSet.mem_toList.mpr
        (hA.target_mem _ (mem_silentTargets.mp h)))
  rw [silentClosure, OrdSet.mem_ofList]
  exact mem_discover_iff hstates (Nat.le_of_eq Std.ExtTreeSet.length_toList)

theorem subset_silentClosure {A : NFA α} {S : States} {q : State}
    (h : q ∈ S) : q ∈ A.silentClosure S :=
  OrdSet.mem_ofList.mpr
    (mem_discover_of_mem (Std.ExtTreeSet.mem_toList.mpr h))

/-- **The move is what the symbol reaches.** -/
@[simp] theorem mem_move_iff {A : NFA α} {S : States} {a : α}
    {r : State} :
    r ∈ A.move S a ↔ ∃ q ∈ S, ⟨q, .symbol a, r⟩ ∈ A.edges := by
  simp [move]

/-- **A next set is a closed move**, and it is never empty. -/
theorem nextSet?_eq_some_iff {A : NFA α} {S T : States} {a : α} :
    A.nextSet? S a = some T ↔
      T = A.silentClosure (A.move S a) ∧ ∃ q, q ∈ T := by
  unfold nextSet?
  dsimp only
  split
  · next h =>
    rw [Std.ExtTreeSet.isEmpty_iff] at h
    refine ⟨nofun, fun ⟨hT, q, hq⟩ => ?_⟩
    rw [hT, h] at hq
    exact absurd hq Std.ExtTreeSet.not_mem_empty
  · next h =>
    rw [Std.ExtTreeSet.isEmpty_iff, Std.ExtTreeSet.eq_empty_iff_forall_not_mem,
      Classical.not_forall_not] at h
    constructor
    · intro hT
      cases hT
      exact ⟨rfl, h⟩
    · rintro ⟨rfl, -⟩
      rfl

/-- **The next set holds what the symbol and then silent transitions
reach.** Where nothing is reached there is no next set. -/
theorem mem_nextSet?_iff {A : NFA α} (hA : A.WellFormed) {S : States} {a : α}
    {r : State} :
    (∃ T, A.nextSet? S a = some T ∧ r ∈ T) ↔
      ∃ q ∈ S, ∃ p, ⟨q, .symbol a, p⟩ ∈ A.edges ∧
        Reachable A.silentTargets [p] r := by
  have hmem : r ∈ A.silentClosure (A.move S a) ↔
      ∃ q ∈ S, ∃ p, ⟨q, .symbol a, p⟩ ∈ A.edges ∧
        Reachable A.silentTargets [p] r := by
    rw [mem_silentClosure_iff hA, Reachable.iff_exists]
    simp only [Std.ExtTreeSet.mem_toList, mem_move_iff]
    constructor
    · rintro ⟨p, ⟨q, hq, he⟩, hr⟩
      exact ⟨q, hq, p, he, hr⟩
    · rintro ⟨q, hq, p, he, hr⟩
      exact ⟨p, ⟨q, hq, he⟩, hr⟩
  rw [← hmem]
  constructor
  · rintro ⟨T, hT, hr⟩
    exact (nextSet?_eq_some_iff.mp hT).1 ▸ hr
  · intro hr
    exact ⟨_, nextSet?_eq_some_iff.mpr ⟨rfl, r, hr⟩, hr⟩

/-- The automaton as a machine on sets of states. -/
def machine (A : NFA α) : Machine α States where
  alphabet := A.alphabet
  start := A.startSet
  next? := A.nextSet?
  final := A.isFinalSet

/-- **Runs a word.** -/
def run (A : NFA α) (w : List α) : Except (Fault α) Bool :=
  A.machine.run w

end Recognizer.NFA
