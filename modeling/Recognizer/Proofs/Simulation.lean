import Recognizer.NFA.Path

/-!
# A run is at the ends of the trails

A run of a nondeterministic automaton keeps one set of states. This module
says which set that is, with no reference to closures: a **trail** is a
sequence of transitions with their labels, and after a word the run is at
the states to which a trail from the start leads whose labels, the silent
ones erased, spell the word (`NFA.Reaches`).

Two ways to compute that set differ in where they close it. A run closes
the start once and then after every move, `NFA.consume` closes before and
after each move. From the second symbol on, closing before a move does
nothing, since the set is the result of a closure; at the first symbol it
does what the run has done at the start. So both agree after every word but
the empty one, after which a fold of `consume` has closed nothing at all
(`walk_nil_ne_foldl_consume`).
-/

namespace Recognizer.NFA

variable {α : Type} [LinearOrd α]

/-- **A sequence of transitions**, with their labels. -/
inductive Trail (A : NFA α) : State → List (Label α) → State → Prop where
  | nil (q : State) : Trail A q [] q
  | cons {q r s : State} {l : Label α} {ls : List (Label α)} :
      ⟨q, l, r⟩ ∈ A.edges → Trail A r ls s → Trail A q (l :: ls) s

/-- **The states after a word**: the ends of the trails from the start
whose labels, the silent ones erased, spell the word. -/
def Reaches (A : NFA α) (w : List α) (q : State) : Prop :=
  ∃ ls, Label.erase ls = w ∧ A.Trail A.start ls q

variable {A : NFA α}

/-- A trail spells a path's word when its labels do. -/
theorem Trail.path {p q : State} {ls : List (Label α)}
    (h : A.Trail p ls q) : A.Path p (Label.erase ls) q := by
  induction h with
  | nil => exact .refl _
  | @cons q r s l ls he _ ih =>
    cases l with
    | symbol a => exact .symbol he ih
    | silent => exact .silent he ih

/-- **A path is a trail** with its silent labels erased. -/
theorem path_iff_exists_trail {p q : State} {w : List α} :
    A.Path p w q ↔ ∃ ls, Label.erase ls = w ∧ A.Trail p ls q := by
  constructor
  · intro h
    induction h with
    | refl q => exact ⟨[], rfl, .nil q⟩
    | silent he _ ih =>
      obtain ⟨ls, hls, ht⟩ := ih
      exact ⟨.silent :: ls, hls, .cons he ht⟩
    | @symbol q r s a w he _ ih =>
      obtain ⟨ls, hls, ht⟩ := ih
      exact ⟨.symbol a :: ls, by rw [Label.erase_cons_symbol, hls], .cons he ht⟩
  · rintro ⟨ls, rfl, ht⟩
    exact ht.path

/-- What the run reaches, said with paths. -/
theorem reaches_iff_path {w : List α} {q : State} :
    A.Reaches w q ↔ A.Path A.start w q :=
  path_iff_exists_trail.symm

/-! ## Sets of states and paths -/

/-- The closure holds the ends of the paths that spell nothing. -/
theorem mem_silentClosure_iff_path (hA : A.WellFormed) {S : States}
    {r : State} : r ∈ A.silentClosure S ↔ ∃ q ∈ S, A.Path q [] r := by
  rw [mem_silentClosure_iff hA, Reachable.iff_exists]
  simp only [Std.ExtTreeSet.mem_toList, Path.nil_iff]

/-- **One consumed symbol is a path** that spells it. -/
theorem mem_consume_iff_path (hA : A.WellFormed) {S : States} {a : α}
    {r : State} : r ∈ A.consume S a ↔ ∃ q ∈ S, A.Path q [a] r := by
  rw [consume, mem_silentClosure_iff_path hA]
  constructor
  · rintro ⟨p', hp', hr⟩
    obtain ⟨p, hp, he⟩ := mem_move_iff.mp hp'
    obtain ⟨q, hq, hqp⟩ := (mem_silentClosure_iff_path hA).mp hp
    exact ⟨q, hq, Path.cons_iff.mpr ⟨p, p', hqp, he, hr⟩⟩
  · rintro ⟨q, hq, h⟩
    obtain ⟨p, p', hqp, he, hr⟩ := Path.cons_iff.mp h
    exact ⟨p', mem_move_iff.mpr
      ⟨p, (mem_silentClosure_iff_path hA).mpr ⟨q, hq, hqp⟩, he⟩, hr⟩

/-- **A word consumed symbol by symbol is a path** that spells it, if there
is a symbol to consume. -/
theorem mem_foldl_consume_iff_path (hA : A.WellFormed) {w : List α}
    (hw : w ≠ []) {S : States} {r : State} :
    r ∈ w.foldl A.consume S ↔ ∃ q ∈ S, A.Path q w r := by
  induction w generalizing S with
  | nil => exact absurd rfl hw
  | cons a w ih =>
    rw [List.foldl_cons]
    -- the last symbol is a case of its own: after it nothing is consumed
    by_cases h : w = []
    · rw [h]
      exact mem_consume_iff_path hA
    · rw [ih h]
      constructor
      · rintro ⟨p, hp, hr⟩
        obtain ⟨q, hq, hqp⟩ := (mem_consume_iff_path hA).mp hp
        exact ⟨q, hq, hqp.append hr⟩
      · rintro ⟨q, hq, hr⟩
        obtain ⟨p, hqp, hpr⟩ := Path.append_iff (u := [a]).mp hr
        exact ⟨p, (mem_consume_iff_path hA).mpr ⟨q, hq, hqp⟩, hpr⟩

/-! ## The sets of a run -/

/-- No set of a run is empty. -/
theorem exists_mem_of_walk {S T : States} {w : List α}
    (hS : ∃ q, q ∈ S) (h : A.machine.walk S w = some T) : ∃ q, q ∈ T := by
  induction w generalizing S with
  | nil =>
    cases h
    exact hS
  | cons a w ih =>
    rw [Machine.walk_cons, Option.bind_eq_some_iff] at h
    obtain ⟨U, hU, hT⟩ := h
    exact ih (nextSet?_eq_some_iff.mp hU).2 hT

/-- **After a word the run is at what the word reaches.** -/
theorem mem_iff_reaches_of_walk (hA : A.WellFormed) {w : List α}
    {T : States} (h : A.machine.walk A.startSet w = some T) {q : State} :
    q ∈ T ↔ A.Reaches w q := by
  rw [reaches_iff_path, ← mem_walk_startSet_iff hA, h]
  constructor
  · intro hq
    exact ⟨T, rfl, hq⟩
  · rintro ⟨U, hU, hq⟩
    cases hU
    exact hq

/-- **A run is at a dead end** when the word reaches no state. -/
theorem walk_eq_none_iff (hA : A.WellFormed) {w : List α} :
    A.machine.walk A.startSet w = none ↔ ∀ q, ¬ A.Reaches w q := by
  constructor
  · intro h q hq
    rw [reaches_iff_path, ← mem_walk_startSet_iff hA, h] at hq
    obtain ⟨T, hT, -⟩ := hq
    exact absurd hT nofun
  · intro h
    cases hT : A.machine.walk A.startSet w with
    | none => rfl
    | some T =>
      obtain ⟨q, hq⟩ := exists_mem_of_walk
        ⟨A.start, subset_silentClosure (by simp)⟩ hT
      exact absurd ((mem_iff_reaches_of_walk hA hT).mp hq) (h q)

/-- A set of a run has no next set when one more symbol reaches no
state. -/
theorem nextSet?_eq_none_iff_reaches (hA : A.WellFormed) {w : List α}
    {T : States} (h : A.machine.walk A.startSet w = some T) {a : α} :
    A.nextSet? T a = none ↔ ∀ q, ¬ A.Reaches (w ++ [a]) q := by
  rw [← walk_eq_none_iff hA, Machine.walk_append, h, Option.bind_some,
    Machine.walk_cons]
  show _ ↔ (A.nextSet? T a).bind _ = none
  cases A.nextSet? T a <;> simp

/-! ## The whole simulation -/

/-- **A run answers by trails**, and on the way is at the ends of them.

A symbol from outside the alphabet is the fault wherever it stands, the
first of several. Over the alphabet the answer is whether a trail that
spells the word leads from the start to an accepting state. Over any
symbols, the set of the run is the set of states the word reaches, there is
no next set exactly where one more symbol reaches no state, and every word
that is not empty is consumed to the same set from the start alone. -/
theorem run_and_walk_iff_reaches (hA : A.WellFormed) (w : List α) :
    (∀ u a v, w = u ++ a :: v → (∀ b ∈ u, b ∈ A.alphabet) →
      a ∉ A.alphabet → A.run w = .error (.outsideSymbol a)) ∧
    ((∀ a ∈ w, a ∈ A.alphabet) → ∃ b, A.run w = .ok b ∧
      (b = true ↔ ∃ q ∈ A.final, A.Reaches w q)) ∧
    (A.machine.walk A.startSet w = none ↔ ∀ q, ¬ A.Reaches w q) ∧
    (∀ T, A.machine.walk A.startSet w = some T →
      (∀ q, q ∈ T ↔ A.Reaches w q) ∧
      ∀ a, A.nextSet? T a = none ↔ ∀ q, ¬ A.Reaches (w ++ [a]) q) ∧
    (w ≠ [] → ∀ q, q ∈ w.foldl A.consume (OrdSet.ofList [A.start]) ↔
      A.Reaches w q) := by
  refine ⟨fun u a v hw hu ha => ?_, fun hw => ?_, walk_eq_none_iff hA,
    fun T hT => ⟨fun q => mem_iff_reaches_of_walk hA hT, fun a =>
      nextSet?_eq_none_iff_reaches hA hT⟩, fun hw q => ?_⟩
  · exact Machine.run_eq_error_iff.mpr
      ⟨a, Alphabet.firstOutside_eq_some_iff.mpr ⟨ha, u, v, hw, hu⟩, rfl⟩
  · obtain ⟨b, hb, hiff⟩ := exists_run_eq_ok hA hw
    refine ⟨b, hb, ?_⟩
    rw [hiff]
    simp only [Accepts, reaches_iff_path]
  · rw [mem_foldl_consume_iff_path hA hw, reaches_iff_path]
    constructor
    · rintro ⟨p, hp, hpq⟩
      rw [List.mem_singleton.mp (OrdSet.mem_ofList.mp hp)] at hpq
      exact hpq
    · intro h
      exact ⟨A.start, by simp, h⟩

/-- An automaton of the words over one digit: silently from the start to
the accepting state, and back with the digit. -/
def silentLoop : NFA Char where
  alphabet := OrdSet.ofList ['0']
  start := 0
  states := OrdSet.ofList [0, 1]
  final := OrdSet.ofList [1]
  edges := EdgeSet.ofList [⟨0, .silent, 1⟩, ⟨1, .symbol '0', 0⟩]

theorem wellFormed_silentLoop : silentLoop.WellFormed := by
  constructor <;> simp [silentLoop]

/-- The digit leads around the silent cycle to an accepting state. -/
theorem run_silentLoop_iff_reaches :
    silentLoop.WellFormed ∧ (∀ a ∈ ['0'], a ∈ silentLoop.alphabet) ∧
      ∃ b, silentLoop.run ['0'] = .ok b ∧
        (b = true ↔ ∃ q ∈ silentLoop.final, silentLoop.Reaches ['0'] q) :=
  have hw : ∀ a ∈ ['0'], a ∈ silentLoop.alphabet :=
    Alphabet.firstOutside_eq_none_iff.mp rfl
  ⟨wellFormed_silentLoop, hw,
    (run_and_walk_iff_reaches wellFormed_silentLoop ['0']).2.1 hw⟩

/-- **After the empty word nothing has been consumed**, and so nothing was
closed: the fold leaves the start alone, where the run is at all states
that silent transitions lead to. -/
theorem walk_nil_ne_foldl_consume :
    silentLoop.WellFormed ∧
      silentLoop.machine.walk silentLoop.startSet []
        = some (OrdSet.ofList [0, 1]) ∧
      [].foldl silentLoop.consume (OrdSet.ofList [silentLoop.start])
        = OrdSet.ofList [0] ∧
      (OrdSet.ofList [0, 1] : States) ≠ OrdSet.ofList [0] :=
  ⟨wellFormed_silentLoop, by decide, by decide, by decide⟩

end Recognizer.NFA
