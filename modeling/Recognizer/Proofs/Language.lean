import Mathlib.Computability.Language
import Recognizer.NFA.Definition
import Recognizer.Proofs.Operators
import Recognizer.Regex.Language

/-!
# Languages of automata and of trees

What the operators do to the words of their operands are the operations on
languages: a sequence multiplies, a choice adds, a star is the Kleene
closure. Said as equations between languages, the laws of a semiring take
care of the order in which several items are combined. The same equations
hold of trees, where a sequence and a choice have a list of items, and their
languages are a product and a sum over that list.
-/

open scoped Computability

namespace Recognizer

namespace NFA

variable {α : Type} [LinearOrd α] {A B : NFA α} {S : Alphabet α}

/-- **The language of an automaton.** -/
def language (A : NFA α) : Language α := {w | A.Accepts w}

theorem mem_language {w : List α} : w ∈ A.language ↔ A.Accepts w := Iff.rfl

/-- **A sequence multiplies.** -/
theorem language_sequence (hA : A.WellFormed) (hB : B.WellFormed)
    (hfit : A.fragmentSize + B.fragmentSize ≤ UInt32.size) :
    (A.sequence B).language = A.language * B.language := by
  ext w
  rw [mem_language, accepts_sequence_iff hA hB hfit, Language.mem_mul]
  refine ⟨fun ⟨u, v, hw, hu, hv⟩ => ?_, fun ⟨u, hu, v, hv, hw⟩ => ?_⟩
  · exact ⟨u, hu, v, hv, hw.symm⟩
  · exact ⟨u, v, hw.symm, hu, hv⟩

/-- **A choice adds.** -/
theorem language_choice (hA : A.WellFormed) (hB : B.WellFormed)
    (hfit : A.fragmentSize + B.fragmentSize + 2 ≤ UInt32.size) :
    (A.choice B).language = A.language + B.language := by
  ext w
  exact accepts_choice_iff hA hB hfit

/-- **A star is the Kleene closure.** -/
theorem language_star (hA : A.WellFormed)
    (hfit : A.fragmentSize + 2 ≤ UInt32.size) :
    A.star.language = A.language∗ := by
  ext w
  exact accepts_star_iff hA hfit

/-- A single state accepts the empty word or nothing. -/
theorem language_point (S : Alphabet α) (q : State) (accepts : Bool) :
    (point S q accepts).language = if accepts then 1 else 0 := by
  ext w
  have hpath : ∀ r, (point S q accepts).Path q w r ↔ w = [] ∧ r = q := by
    refine fun r => ⟨fun h => ?_, fun ⟨hw, hr⟩ => ?_⟩
    · exact h.eq_of_no_edge fun e he => absurd he EdgeSet.not_mem_empty
    · rw [hw, hr]
      exact .refl _
  show (∃ r ∈ (point S q accepts).final, (point S q accepts).Path q w r) ↔ _
  simp only [hpath]
  cases accepts with
  | true => simp [point]
  | false => simp [point]

/-- The automaton of two states that accepts one symbol and nothing else. -/
def letter (S : Alphabet α) (a : α) : NFA α where
  alphabet := S
  start := 0
  states := OrdSet.ofList [0, 1]
  final := OrdSet.ofList [1]
  edges := EdgeSet.ofList [⟨0, .symbol a, 1⟩]

/-- Over an alphabet with the symbol there is one. -/
theorem single_eq_letter {a : α} (ha : a ∈ S) :
    single S a = .ok (letter S a) := by
  refine assemble_eq_ok_iff.mpr ⟨by decide, fun e he => ?_, rfl⟩
  rw [List.mem_singleton.mp he, edgeFault_eq_none_iff]
  refine ⟨fun b hb => ?_, by simp, by simp⟩
  cases hb
  exact ha

theorem language_letter (S : Alphabet α) (a : α) :
    (letter S a).language = {[a]} := by
  ext w
  have hedge : ∀ e, e ∈ (letter S a).edges ↔ e = ⟨0, .symbol a, 1⟩ :=
    fun e => by rw [letter, EdgeSet.mem_ofList, List.mem_singleton]
  have hend : ∀ e ∈ (letter S a).edges, e.source ≠ 1 := by
    intro e he
    rw [(hedge e).mp he]
    exact (by decide : (0 : State) ≠ 1)
  rw [mem_language, accepts_iff_path (q := 1) rfl]
  refine ⟨fun h => ?_, fun h => ?_⟩
  · cases h with
    | silent he _ => exact absurd ((hedge _).mp he) nofun
    | symbol he h =>
      cases (hedge _).mp he
      rw [(h.eq_of_no_edge hend).1]
      rfl
  · have hw : w = [a] := h
    rw [hw]
    exact .symbol ((hedge _).mpr rfl) (.refl _)

end NFA

namespace Regex

variable {α : Type}

/-- **The language of a tree.** -/
def language (t : Regex α) : Language α := {w | t.Matches w}

theorem mem_language {t : Regex α} {w : List α} :
    w ∈ t.language ↔ t.Matches w := Iff.rfl

/-- **A sequence is a product**, that of no items being the empty word. -/
theorem language_sequence (ts : List (Regex α)) :
    (sequence ts).language = (ts.map language).prod := by
  induction ts with
  | nil => rfl
  | cons t ts ih =>
    rw [List.map_cons, List.prod_cons, ← ih]
    ext w
    rw [Language.mem_mul]
    show (∃ u v, w = u ++ v ∧ t.Matches u ∧ MatchesEach ts v) ↔ _
    refine ⟨fun ⟨u, v, hw, hu, hv⟩ => ?_, fun ⟨u, hu, v, hv, hw⟩ => ?_⟩
    · exact ⟨u, hu, v, hv, hw.symm⟩
    · exact ⟨u, v, hw.symm, hu, hv⟩

/-- **A choice is a sum**, that of no items being empty. -/
theorem language_choice (ts : List (Regex α)) :
    (choice ts).language = (ts.map language).sum := by
  induction ts with
  | nil => rfl
  | cons t ts ih =>
    rw [List.map_cons, List.sum_cons, ← ih]
    rfl

/-- Multiplying from left to right is multiplying by the product. -/
theorem foldl_mul_language (ts : List (Regex α)) (l : Language α) :
    ts.foldl (fun l t => l * t.language) l = l * (ts.map language).prod := by
  induction ts generalizing l with
  | nil => exact (mul_one l).symm
  | cons t ts ih =>
    rw [List.foldl_cons, ih, List.map_cons, List.prod_cons, mul_assoc]

/-- Adding from left to right is adding the sum. -/
theorem foldl_add_language (ts : List (Regex α)) (l : Language α) :
    ts.foldl (fun l t => l + t.language) l = l + (ts.map language).sum := by
  induction ts generalizing l with
  | nil => exact (add_zero l).symm
  | cons t ts ih =>
    rw [List.foldl_cons, ih, List.map_cons, List.sum_cons, add_assoc]

theorem language_star (t : Regex α) : (star t).language = t.language∗ := rfl

theorem language_group (t : Regex α) : (group t).language = t.language := rfl

end Regex

end Recognizer
