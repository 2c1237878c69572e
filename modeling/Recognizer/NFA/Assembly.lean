import Recognizer.NFA.Operators

/-!
# Combining automata step by step

The operators of the previous module are closed forms: the states of the
result are a union, and its edges are a union and a few more. Here the same
automata are put together the way a table of states is, with everything that
may go wrong on the way.

Three steps compute ids, and each of them is checked: a count of states that
is to be an id, the sum of two ids, and the numbers of all states from an
offset on. What is unchecked is a table that replaces. A new state takes the
place of one that has its id, and when an automaton is moved into another one
its states take the place of theirs, together with their acceptance and the
edges that leave them. Where ids were to fall together, states would be lost
without a word.
-/

namespace Recognizer

/-! ## Checked ids -/

/-- **An id that there is not.** -/
inductive IdFault where
  /-- A count of states that is above every id. -/
  | count (n : Nat)
  /-- Two ids whose sum is above every id. -/
  | sum (p q : State)
  /-- More states than ids from an offset on. -/
  | room (f : NoRoom)
  deriving DecidableEq

/-- A count of states as an id. -/
def checkedId (n : Nat) : Except IdFault State :=
  if n < UInt32.size then .ok (UInt32.ofNat n) else .error (.count n)

/-- The sum of two ids. -/
def checkedAdd (p q : State) : Except IdFault State :=
  if p.toNat + q.toNat < UInt32.size then .ok (p + q) else .error (.sum p q)

theorem checkedId_eq_ok {n : Nat} (h : n < UInt32.size) :
    checkedId n = .ok (UInt32.ofNat n) := if_pos h

theorem checkedAdd_eq_ok {p q : State}
    (h : p.toNat + q.toNat < UInt32.size) : checkedAdd p q = .ok (p + q) :=
  if_pos h

namespace NFA

variable {α : Type} [LinearOrd α]

/-- The states with their numbers from an offset on. -/
def checkedPack (offset : State) (A : NFA α) : Except IdFault (NFA α) :=
  (A.pack offset).mapError .room

theorem checkedPack_eq_ok {A : NFA α} {offset : State}
    (h : offset.toNat + A.size ≤ UInt32.size) :
    A.checkedPack offset = .ok (A.packed offset) := by
  rw [checkedPack, pack, if_neg (Nat.not_lt.mpr h)]
  rfl

/-! ## Tables that replace -/

/-- **A new state without edges**, in place of any state with its id. -/
def addState (A : NFA α) (q : State) (accepts : Bool) : NFA α :=
  { A with
    states := A.states.insert q
    final := if accepts then A.final.insert q else A.final.erase q
    edges := A.edges.filter fun e => e.source ≠ q }

/-- Makes a state accept or not. -/
def setFinal (A : NFA α) (q : State) (accepts : Bool) : NFA α :=
  if q ∈ A.states then
    { A with final := if accepts then A.final.insert q else A.final.erase q }
  else A

/-- One more silent edge from a state. -/
def connect (A : NFA α) (q r : State) : NFA α :=
  if q ∈ A.states then { A with edges := A.edges.link q r } else A

/-- **The states of another automaton**, in place of any states with their
ids. -/
def absorb (A B : NFA α) : NFA α :=
  { A with
    states := A.states ∪ B.states
    final := (A.final.filter fun q => q ∉ B.states) ∪ B.final
    edges := (A.edges.filter fun e => e.source ∉ B.states) ∪ B.edges }

/-- States hand their acceptance over to another state, which they reach
silently. -/
def handOver (A : NFA α) (qs : List State) (exit : State) : NFA α :=
  qs.foldl (fun A q => (A.setFinal q false).connect q exit) A

/-! ## The operators -/

namespace Stepwise

/-- **One way out**: the automaton numbered from zero on, and its only
accepting state. Unless there is one already, a fresh state takes over from
those that accept. -/
def normalize (A : NFA α) : Except IdFault (NFA α × State) := do
  let B ← A.checkedPack 0
  match B.final.toList with
  | [exit] => return (B, exit)
  | accepting =>
    let exit ← checkedId B.size
    return ((B.addState exit true).handOver accepting exit, exit)

def funnel (A : NFA α) : Except IdFault (NFA α) := do
  let (B, _) ← normalize A
  return B

def sequence (A B : NFA α) : Except IdFault (NFA α) := do
  let (left, splice) ← normalize A
  let (right, _) ← normalize B
  let offset ← checkedId left.size
  let right ← right.checkedPack offset
  let left := (left.setFinal splice false).connect splice right.start
  let left := { left with alphabet := left.alphabet ∪ right.alphabet }
  return left.absorb right

/-- Moves an operand in between a start and an accepting state. -/
def insertBetween (start accept : State) (N operand : NFA α) (exit : State) :
    NFA α :=
  ((N.absorb (operand.setFinal exit false)).connect start
    operand.start).connect exit accept

def choice (A B : NFA α) : Except IdFault (NFA α) := do
  let (left, leftExit) ← normalize A
  let (right, rightExit) ← normalize B
  let offset ← checkedId left.size
  let right ← right.checkedPack offset
  let rightExit ← checkedAdd rightExit offset
  let size ← checkedId right.size
  let start ← checkedAdd offset size
  let accept ← checkedAdd start 1
  let N := (point (left.alphabet ∪ right.alphabet) start false).addState accept true
  let N := insertBetween start accept N left leftExit
  return insertBetween start accept N right rightExit

def star (A : NFA α) : Except IdFault (NFA α) := do
  let (inner, exit) ← normalize A
  let start ← checkedId inner.size
  let accept ← checkedAdd start 1
  let N := (point inner.alphabet start false).addState accept true
  let N := N.absorb (inner.setFinal exit false)
  return (((N.connect start inner.start).connect start accept).connect
    exit inner.start).connect exit accept

end Stepwise

end NFA

end Recognizer
