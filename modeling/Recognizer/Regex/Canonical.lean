import Recognizer.Regex.Printer

/-!
# The trees that patterns spell

A tree without a sign among its literals and without an empty sequence or
choice prints to a pattern (`Regex.Expressible`). Many such trees print to
the same pattern, and one of them is the tree the pattern is read as.
`Regex.Canonical` says which: a sequence holds at least two factors, a choice
at least two alternatives none of which is a choice, and a star stands over a
literal or a group. Printing a canonical tree adds no parentheses of its own.
-/

namespace Recognizer.Regex

/-- The characters with a meaning in patterns. -/
def isSign (c : Char) : Bool :=
  c = '|' || c = '*' || c = '(' || c = ')'

/-- Whether a tree may stand in a sequence by itself. -/
def isFactor {α : Type} : Regex α → Bool
  | literal _ => true
  | star _ => true
  | group _ => true
  | _ => false

/-- **The trees that print to patterns.** -/
inductive Expressible : Regex Char → Prop where
  | literal {c : Char} : isSign c = false → Expressible (literal c)
  | sequence {ts : List (Regex Char)} : ts ≠ [] →
      (∀ t ∈ ts, Expressible t) → Expressible (sequence ts)
  | choice {ts : List (Regex Char)} : ts ≠ [] →
      (∀ t ∈ ts, Expressible t) → Expressible (choice ts)
  | star {t : Regex Char} : Expressible t → Expressible (star t)
  | group {t : Regex Char} : Expressible t → Expressible (group t)

/-- **The trees that patterns are read as.** -/
inductive Canonical : Regex Char → Prop where
  | literal {c : Char} : isSign c = false → Canonical (literal c)
  | sequence {ts : List (Regex Char)} : 2 ≤ ts.length →
      (∀ t ∈ ts, t.isFactor = true) → (∀ t ∈ ts, Canonical t) →
      Canonical (sequence ts)
  | choice {ts : List (Regex Char)} : 2 ≤ ts.length →
      (∀ t ∈ ts, t.isChoice = false) → (∀ t ∈ ts, Canonical t) →
      Canonical (choice ts)
  | star {t : Regex Char} : t.isAtom = true → Canonical t → Canonical (star t)
  | group {t : Regex Char} : Canonical t → Canonical (group t)

/-- Two items or more are not none. -/
theorem ne_nil_of_two_le {ts : List (Regex Char)} (h : 2 ≤ ts.length) :
    ts ≠ [] :=
  List.ne_nil_of_length_pos (Nat.lt_of_lt_of_le Nat.two_pos h)

/-- A tree that is read from a pattern prints to one. -/
theorem Canonical.expressible {t : Regex Char} (ht : t.Canonical) :
    t.Expressible := by
  induction ht with
  | literal hc => exact .literal hc
  | sequence hlen _ _ ih => exact .sequence (ne_nil_of_two_le hlen) ih
  | choice hlen _ _ ih => exact .choice (ne_nil_of_two_le hlen) ih
  | star _ _ ih => exact .star ih
  | group _ ih => exact .group ih

/-- An atom is a factor. -/
theorem isFactor_of_isAtom {α : Type} {t : Regex α} (h : t.isAtom = true) :
    t.isFactor = true := by
  cases t <;> simp_all [isAtom, isFactor]

/-- A factor is no choice. -/
theorem isChoice_of_isFactor {α : Type} {t : Regex α}
    (h : t.isFactor = true) : t.isChoice = false := by
  cases t <;> simp_all [isFactor, isChoice]

/-- **A sequence of factors prints without parentheses of its own.** -/
theorem renderFactors_eq_flatMap {α : Type} [SymbolText α]
    {ts : List (Regex α)} (h : ∀ t ∈ ts, t.isFactor = true) :
    renderFactors ts = ts.flatMap render := by
  induction ts with
  | nil => rfl
  | cons t ts ih =>
    rw [renderFactors, isChoice_of_isFactor (h t List.mem_cons_self),
      ih fun u hu => h u (List.mem_cons_of_mem _ hu)]
    rfl

end Recognizer.Regex
