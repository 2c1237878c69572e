import Recognizer.Fault

/-!
# Edges

An edge is one transition: a source, a label and a target. A
deterministic automaton has edges labelled by symbols, a
nondeterministic one by `Label`s, and what can be said of edges in
general does not depend on which it is.
-/

namespace Recognizer

/-! A state with a symbol or a label is a key of the maps that hold
transitions, and these are the two laws that a map asks of its keys. -/

instance {ℓ : Type} [LinearOrd ℓ] : Std.TransOrd (State × ℓ) :=
  inferInstance

instance {ℓ : Type} [LinearOrd ℓ] : Std.LawfulEqOrd (State × ℓ) :=
  inferInstance

/-- **One transition.** -/
structure Edge (ℓ : Type) where
  source : State
  label : ℓ
  target : State
  deriving DecidableEq

namespace Edge

variable {ℓ m : Type}

/-- The edge with another label. -/
def mapLabel (f : ℓ → m) (e : Edge ℓ) : Edge m :=
  ⟨e.source, f e.label, e.target⟩

/-- The edge with both ends renamed. -/
def mapEnds (f : State → State) (e : Edge ℓ) : Edge ℓ :=
  ⟨f e.source, e.label, f e.target⟩

/-- What an edge is listed by: the source, then the label, then the
target. -/
def key (e : Edge ℓ) : State × ℓ × State :=
  (e.source, e.label, e.target)

theorem key_inj {e f : Edge ℓ} (h : e.key = f.key) : e = f := by
  cases e; cases f
  simp only [key, Prod.mk.injEq] at h
  simp [h]

/-- **Edges are listed by source, then label, then target.** -/
instance [LinearOrd ℓ] : LinearOrd (Edge ℓ) where
  compare e f := compare e.key f.key
  eq_swap := Std.OrientedCmp.eq_swap
  isLE_trans h h' := Std.TransCmp.isLE_trans h h'
  compare_self := Std.ReflCmp.compare_self
  eq_of_compare h := key_inj (Std.LawfulEqCmp.eq_of_compare h)

theorem compare_eq_lt_iff [LinearOrd ℓ] {e f : Edge ℓ} :
    compare e f = .lt ↔
      compare (e.source, e.label) (f.source, f.label) = .lt ∨
        (e.source, e.label) = (f.source, f.label) ∧
          compare e.target f.target = .lt := by
  rw [← LinearOrd.compare_eq_iff (x := (e.source, e.label))]
  change ((compare e.source f.source).then
      ((compare e.label f.label).then (compare e.target f.target))) = .lt ↔
    ((compare e.source f.source).then (compare e.label f.label)) = .lt ∨
      ((compare e.source f.source).then (compare e.label f.label)) = .eq ∧
        compare e.target f.target = .lt
  cases compare e.source f.source <;> cases compare e.label f.label <;> simp

end Edge

end Recognizer
