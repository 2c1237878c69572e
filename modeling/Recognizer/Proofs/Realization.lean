import Recognizer.Proofs.Language
import Recognizer.Proofs.Operators

/-!
# What the automaton of a tree has to be

The construction goes over a tree once and combines values as it comes back
up. What the values are is a matter of `Interpretation`, and three of them are
needed here: the automata themselves, with no limit to fail at, the languages
they are to accept, and their `Extent`s, which count states and accepting
states with natural numbers that never wrap around. The extent of a tree says
beforehand how many ids its automaton takes.

An automaton `Realizes` an extent and a language over an alphabet when it
has all three and its states are numbered from zero on. Each operator
realizes what its name says of realized operands (`Realizes.sequence`,
`Realizes.choice`, `Realizes.star`), provided that its own extent fits into
the ids. The two operators that combine two automata go through the same
list of items and differ in nothing that an induction over the items could
see, so that what such an induction needs is one condition, `Combines`.
-/

open scoped Computability

namespace Recognizer

/-! ## Reading a tree bottom up -/

/-- **What the nodes of a tree stand for**, in values of any kind. -/
structure Interpretation (α β : Type) where
  /-- A literal. -/
  literal : α → β
  /-- No items, told whether they match the empty word. -/
  empty : Bool → β
  sequence : β → β → β
  choice : β → β → β
  star : β → β

namespace Interpretation

variable {α β : Type}

mutual

/-- **The value of a tree.** A group has the value of what it holds. -/
def eval (I : Interpretation α β) : Regex α → β
  | .literal a => I.literal a
  | .sequence ts => I.evalItems I.sequence true ts
  | .choice ts => I.evalItems I.choice false ts
  | .star t => I.star (I.eval t)
  | .group t => I.eval t

/-- The values of the items, combined from left to right. -/
def evalItems (I : Interpretation α β) (combine : β → β → β)
    (acceptsEmpty : Bool) : List (Regex α) → β
  | [] => I.empty acceptsEmpty
  | t :: ts => I.evalRest combine ts (I.eval t)

/-- A value combined with those of further items. -/
def evalRest (I : Interpretation α β) (combine : β → β → β) :
    List (Regex α) → β → β
  | [], b => b
  | t :: ts, b => I.evalRest combine ts (combine b (I.eval t))

end

variable (I : Interpretation α β)

/-- Further items are combined one by one. -/
theorem evalRest_eq_foldl (combine : β → β → β) (ts : List (Regex α)) (b : β) :
    I.evalRest combine ts b
      = ts.foldl (fun b t => combine b (I.eval t)) b := by
  induction ts generalizing b with
  | nil => rfl
  | cons t ts ih => rw [evalRest, ih, List.foldl_cons]

end Interpretation

/-! ## Extents -/

/-- **How large an automaton is**, counted without regard to the number of
ids. -/
structure Extent where
  /-- The number of states. -/
  states : Nat
  /-- The number of accepting states. -/
  accepting : Nat

namespace Extent

/-- The number of states once exactly one accepts. -/
def fragmentSize (e : Extent) : Nat :=
  if e.accepting = 1 then e.states else e.states + 1

/-- The extent of a sequence of two automata. -/
def sequence (e f : Extent) : Extent :=
  ⟨e.fragmentSize + f.fragmentSize, 1⟩

/-- The extent of a choice of two automata. -/
def choice (e f : Extent) : Extent :=
  ⟨e.fragmentSize + f.fragmentSize + 2, 1⟩

/-- The extent of a repeated automaton. -/
def star (e : Extent) : Extent :=
  ⟨e.fragmentSize + 2, 1⟩

/-- What the nodes of a tree come to in states. -/
def interpretation (α : Type) : Interpretation α Extent where
  literal _ := ⟨2, 1⟩
  empty acceptsEmpty := ⟨1, if acceptsEmpty then 1 else 0⟩
  sequence := sequence
  choice := choice
  star := star

theorem states_le_fragmentSize (e : Extent) : e.states ≤ e.fragmentSize := by
  unfold fragmentSize
  split <;> omega

theorem fragmentSize_le (e : Extent) : e.fragmentSize ≤ e.states + 1 := by
  unfold fragmentSize
  split <;> omega

end Extent

namespace Regex

variable {α : Type}

/-- **The extent of the automaton of a tree.** -/
def extent (t : Regex α) : Extent := (Extent.interpretation α).eval t

/-- Combining with further items makes no extent smaller. -/
theorem states_le_evalRest {measure : Extent → Extent → Extent}
    (h : ∀ e f, e.fragmentSize + f.fragmentSize ≤ (measure e f).states)
    (ts : List (Regex α)) (e : Extent) :
    e.states ≤ ((Extent.interpretation α).evalRest measure ts e).states := by
  induction ts generalizing e with
  | nil => exact Nat.le_refl _
  | cons t ts ih =>
    calc e.states ≤ e.fragmentSize := e.states_le_fragmentSize
      _ ≤ e.fragmentSize + t.extent.fragmentSize := Nat.le_add_right ..
      _ ≤ (measure e t.extent).states := h e t.extent
      _ ≤ _ := ih _

end Regex

/-! ## Meanings -/

/-- What the nodes of a tree mean, as languages. -/
def Interpretation.languages (α : Type) : Interpretation α (Language α) where
  literal a := {[a]}
  empty acceptsEmpty := if acceptsEmpty then 1 else 0
  sequence := (· * ·)
  choice := (· + ·)
  star := (·∗)

/-- **Read bottom up a tree means its language.** -/
theorem Regex.eval_languages {α : Type} (t : Regex α) :
    (Interpretation.languages α).eval t = t.language := by
  induction t using Regex.induction with
  | literal a => rfl
  | sequence ts ih =>
    cases ts with
    | nil => rfl
    | cons t ts =>
      rw [language_sequence, List.map_cons, List.prod_cons,
        ← foldl_mul_language, ← ih t List.mem_cons_self]
      refine (Interpretation.evalRest_eq_foldl _ _ ts _).trans
        (List.foldl_ext _ _ _ fun l u hu => ?_)
      rw [ih u (List.mem_cons_of_mem _ hu)]
      rfl
  | choice ts ih =>
    cases ts with
    | nil => rfl
    | cons t ts =>
      rw [language_choice, List.map_cons, List.sum_cons,
        ← foldl_add_language, ← ih t List.mem_cons_self]
      refine (Interpretation.evalRest_eq_foldl _ _ ts _).trans
        (List.foldl_ext _ _ _ fun l u hu => ?_)
      rw [ih u (List.mem_cons_of_mem _ hu)]
      rfl
  | star t ih => exact congrArg (·∗) ih
  | group t ih => exact ih

/-! ## The construction without limits -/

namespace NFA

variable {α : Type} [LinearOrd α]

/-- What the nodes of a tree are built as. -/
def interpretation (S : Alphabet α) : Interpretation α (NFA α) where
  literal := letter S
  empty := point S 0
  sequence := sequence
  choice := choice
  star := star

end NFA

namespace Regex

variable {α : Type} [LinearOrd α]

/-- **The automaton of a tree** where nothing limits the construction. -/
def automaton (S : Alphabet α) (t : Regex α) : NFA α :=
  (NFA.interpretation S).eval t

end Regex

/-! ## Realizing an extent and a language -/

namespace NFA

variable {α : Type} [LinearOrd α] {S : Alphabet α} {A B : NFA α}
  {e f : Extent} {l m : Language α}

/-- States with the ids below a number are as many as the number says. -/
theorem size_of_states_eq {n : Nat} (h : A.states = idsFrom 0 n)
    (hfit : n ≤ UInt32.size) : A.size = n := by
  rw [size, h, size_idsFrom (fit_zero hfit)]

/-- **The automaton is as large as foreseen and accepts what it should.** -/
structure Realizes (A : NFA α) (S : Alphabet α) (e : Extent)
    (l : Language α) : Prop where
  wellFormed : A.WellFormed
  alphabet_eq : A.alphabet = S
  states_eq : A.states = idsFrom 0 e.states
  size_eq : A.size = e.states
  size_final_eq : A.final.size = e.accepting
  language_eq : A.language = l

namespace Realizes

theorem fragmentSize_eq (h : A.Realizes S e l) :
    A.fragmentSize = e.fragmentSize := by
  rw [NFA.fragmentSize, Extent.fragmentSize, h.size_eq, h.size_final_eq]

theorem letter {a : α} (ha : a ∈ S) : (letter S a).Realizes S ⟨2, 1⟩ {[a]} where
  wellFormed := wellFormed_of_assemble (single_eq_letter ha)
  alphabet_eq := rfl
  states_eq := rfl
  size_eq := OrdSet.size_ofList_of_nodup (by decide)
  size_final_eq := OrdSet.size_ofList_of_nodup (by decide)
  language_eq := language_letter S a

theorem point (S : Alphabet α) (accepts : Bool) :
    (point S 0 accepts).Realizes S ⟨1, if accepts then 1 else 0⟩
      (if accepts then 1 else 0) where
  wellFormed := wellFormed_point S 0 accepts
  alphabet_eq := rfl
  states_eq := rfl
  size_eq := OrdSet.size_ofList_of_nodup (by decide)
  size_final_eq := by
    cases accepts with
    | true => exact OrdSet.size_ofList_of_nodup (by decide)
    | false => rfl
  language_eq := language_point S 0 accepts

theorem alphabet_union (hA : A.Realizes S e l) (hB : B.Realizes S f m) :
    A.alphabet ∪ B.alphabet = S := by
  rw [hA.alphabet_eq, hB.alphabet_eq]
  ext a
  simp

/-- **A sequence of realizations realizes the product.** -/
theorem sequence (hA : A.Realizes S e l) (hB : B.Realizes S f m)
    (hfit : (e.sequence f).states ≤ UInt32.size) :
    (A.sequence B).Realizes S (e.sequence f) (l * m) := by
  rw [← hA.language_eq, ← hB.language_eq]
  unfold Extent.sequence at hfit ⊢
  rw [← hA.fragmentSize_eq, ← hB.fragmentSize_eq] at hfit ⊢
  exact {
    wellFormed := wellFormed_sequence hA.wellFormed hB.wellFormed
    alphabet_eq := hA.alphabet_union hB
    states_eq := states_sequence hA.wellFormed hB.wellFormed hfit
    size_eq := size_of_states_eq
      (states_sequence hA.wellFormed hB.wellFormed hfit) hfit
    size_final_eq := size_final_sequence A B
    language_eq := language_sequence hA.wellFormed hB.wellFormed hfit }

/-- **A choice of realizations realizes the sum.** -/
theorem choice (hA : A.Realizes S e l) (hB : B.Realizes S f m)
    (hfit : (e.choice f).states ≤ UInt32.size) :
    (A.choice B).Realizes S (e.choice f) (l + m) := by
  rw [← hA.language_eq, ← hB.language_eq]
  unfold Extent.choice at hfit ⊢
  rw [← hA.fragmentSize_eq, ← hB.fragmentSize_eq] at hfit ⊢
  exact {
    wellFormed := wellFormed_choice hA.wellFormed hB.wellFormed
    alphabet_eq := hA.alphabet_union hB
    states_eq := states_choice hA.wellFormed hB.wellFormed hfit
    size_eq := size_of_states_eq
      (states_choice hA.wellFormed hB.wellFormed hfit) hfit
    size_final_eq := size_final_choice A B
    language_eq := language_choice hA.wellFormed hB.wellFormed hfit }

/-- **A star of a realization realizes the Kleene closure.** -/
theorem star (hA : A.Realizes S e l) (hfit : e.star.states ≤ UInt32.size) :
    A.star.Realizes S e.star l∗ := by
  rw [← hA.language_eq]
  unfold Extent.star at hfit ⊢
  rw [← hA.fragmentSize_eq] at hfit ⊢
  exact {
    wellFormed := wellFormed_star hA.wellFormed
    alphabet_eq := hA.alphabet_eq
    states_eq := states_star hA.wellFormed hfit
    size_eq := size_of_states_eq (states_star hA.wellFormed hfit) hfit
    size_final_eq := size_final_star A
    language_eq := language_star hA.wellFormed hfit }

end Realizes

/-- **A way to combine two automata**, with what it does to extents and to
languages. What is combined takes the states of both and at most two more. -/
structure Combines (S : Alphabet α) (combine : NFA α → NFA α → NFA α)
    (measure : Extent → Extent → Extent)
    (op : Language α → Language α → Language α) : Prop where
  wellFormed : ∀ {A B}, A.WellFormed → B.WellFormed → (combine A B).WellFormed
  le_states : ∀ e f, e.fragmentSize + f.fragmentSize ≤ (measure e f).states
  states_le : ∀ e f,
    (measure e f).states ≤ e.fragmentSize + f.fragmentSize + 2
  realizes : ∀ {A B e f l m}, A.Realizes S e l → B.Realizes S f m →
    (measure e f).states ≤ UInt32.size →
    (combine A B).Realizes S (measure e f) (op l m)

theorem combines_sequence (S : Alphabet α) :
    Combines S sequence Extent.sequence (· * ·) where
  wellFormed := wellFormed_sequence
  le_states _ _ := Nat.le_refl _
  states_le _ _ := Nat.le_add_right _ 2
  realizes := Realizes.sequence

theorem combines_choice (S : Alphabet α) :
    Combines S choice Extent.choice (· + ·) where
  wellFormed := wellFormed_choice
  le_states _ _ := Nat.le_add_right _ 2
  states_le _ _ := Nat.le_refl _
  realizes := Realizes.choice

end NFA

end Recognizer
