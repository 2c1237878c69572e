import Recognizer.Order

/-!
# Labels

A transition of a nondeterministic automaton either consumes a symbol
or is taken silently. `Label` is that choice, and it is a type of its
own rather than an optional symbol because an automaton lists its
transitions in the order of their labels: symbols ascending, the
silent label after all of them.
-/

namespace Recognizer

/-- **What a transition consumes**: one symbol, or nothing. -/
inductive Label (α : Type) where
  /-- The transition consumes this symbol. -/
  | symbol (a : α)
  /-- The transition consumes nothing. -/
  | silent
  deriving DecidableEq

namespace Label

variable {α : Type}

/-- Whether the label is the silent one. -/
def isSilent : Label α → Bool
  | symbol _ => false
  | silent => true

/-- The symbol a label consumes, if it consumes one. -/
def toOption : Label α → Option α
  | symbol a => some a
  | silent => none

/-- A symbol as its label, no symbol as the silent one. -/
def ofOption : Option α → Label α
  | some a => symbol a
  | none => silent

@[simp] theorem ofOption_toOption (l : Label α) : ofOption l.toOption = l := by
  cases l <;> rfl

@[simp] theorem toOption_ofOption (o : Option α) :
    (ofOption o).toOption = o := by
  cases o <;> rfl

/-- A label is silent exactly when it has no symbol. -/
theorem isSilent_iff {l : Label α} : l.isSilent = true ↔ l = silent := by
  cases l <;> simp [isSilent]

/-- Whatever is asked of the symbol of a label, a silent one has none. -/
theorem forall_silent_eq_symbol {P : α → Prop} :
    ∀ a, (silent : Label α) = symbol a → P a := nofun

/-- The symbols a sequence of labels spells, the silent ones erased. -/
def erase (ls : List (Label α)) : List α :=
  ls.filterMap toOption

@[simp] theorem erase_nil : erase ([] : List (Label α)) = [] := rfl

@[simp] theorem erase_cons_symbol (a : α) (ls : List (Label α)) :
    erase (symbol a :: ls) = a :: erase ls := rfl

@[simp] theorem erase_cons_silent (ls : List (Label α)) :
    erase (silent :: ls) = erase ls := rfl

variable [LinearOrd α]

/-- **Symbols ascend, and the silent label follows them all.** -/
instance : Ord (Label α) where
  compare
    | symbol a, symbol b => compare a b
    | symbol _, silent => .lt
    | silent, symbol _ => .gt
    | silent, silent => .eq

@[simp] theorem compare_symbol (a b : α) :
    compare (symbol a) (symbol b) = compare a b := rfl

@[simp] theorem compare_symbol_silent (a : α) :
    compare (symbol a) silent = .lt := rfl

@[simp] theorem compare_silent_symbol (a : α) :
    compare silent (symbol a) = .gt := rfl

@[simp] theorem compare_silent :
    compare (silent : Label α) silent = .eq := rfl

instance : LinearOrd (Label α) where
  eq_swap {l m} := by
    cases l with
    | symbol a =>
      cases m with
      | symbol b =>
        rw [compare_symbol, compare_symbol]
        exact Std.OrientedCmp.eq_swap
      | silent => rfl
    | silent => cases m <;> rfl
  isLE_trans {l m n} h h' := by
    cases l <;> cases m <;> cases n <;> simp_all [Ordering.isLE]
    exact Std.TransCmp.isLE_trans h h'
  compare_self {l} := by cases l <;> simp [Std.ReflCmp.compare_self]
  eq_of_compare {l m} h := by
    cases l <;> cases m <;> simp_all

end Label

end Recognizer
