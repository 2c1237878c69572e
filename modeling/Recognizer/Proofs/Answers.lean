import Recognizer.Proofs.Operators

/-!
# What combined automata answer

`NFA.Accepts` speaks of paths, a caller sees what `NFA.run` returns. The two
meet in one place: an accepted word has no symbol from outside the alphabet,
since its symbols are those of a path, and so a run answers yes exactly on the
accepted words (`run_eq_ok_true_iff`). No word needs to be checked against
the alphabet of a part before the part is asked for it. A word with a symbol
that is foreign to the part is a fault there, hence no yes.

With that, the answers of a combined automaton are told by the answers of its
parts. The alphabets of the parts may differ, and a combined automaton
refuses only what is foreign to all of them.
-/

namespace Recognizer.NFA

variable {α : Type} [LinearOrd α] {A B : NFA α}

/-- **A path spells symbols of the alphabet only.** -/
theorem Path.mem_alphabet (hA : A.WellFormed) {p q : State} {w : List α}
    (h : A.Path p w q) : ∀ a ∈ w, a ∈ A.alphabet := by
  induction h with
  | refl => exact nofun
  | silent _ _ ih => exact ih
  | symbol he _ ih =>
    intro b hb
    rcases List.mem_cons.mp hb with rfl | hb
    · exact hA.symbol_mem _ he b rfl
    · exact ih b hb

/-- **The answer is yes exactly on the accepted words.** -/
theorem run_eq_ok_true_iff (hA : A.WellFormed) {w : List α} :
    A.run w = .ok true ↔ A.Accepts w := by
  constructor
  · intro h
    by_cases hw : ∀ a ∈ w, a ∈ A.alphabet
    · obtain ⟨b, hb, hiff⟩ := exists_run_eq_ok hA hw
      rw [h] at hb
      exact hiff.mp (Except.ok.inj hb).symm
    · -- a fault is no answer
      rw [← Alphabet.firstOutside_eq_none_iff] at hw
      obtain ⟨a, ha⟩ := Option.ne_none_iff_exists'.mp hw
      rw [run, Machine.run_eq_error_iff.mpr ⟨a, ha, rfl⟩] at h
      exact absurd h nofun
  · rintro ⟨q, hq, hpath⟩
    obtain ⟨b, hb, hiff⟩ := exists_run_eq_ok hA (hpath.mem_alphabet hA)
    rw [hb, hiff.mpr ⟨q, hq, hpath⟩]

/-- **A run is a fault or an answer**: a fault at the first symbol from
outside the alphabet, and without one the answer whether the word is
accepted. -/
theorem run_eq_error_and_exists_eq_ok (hA : A.WellFormed) (w : List α) :
    (∀ u a v, w = u ++ a :: v → (∀ b ∈ u, b ∈ A.alphabet) →
      a ∉ A.alphabet → A.run w = .error (.outsideSymbol a)) ∧
    ((∀ a ∈ w, a ∈ A.alphabet) →
      ∃ b, A.run w = .ok b ∧ (b = true ↔ A.Accepts w)) :=
  ⟨fun u a v hw hu ha => Machine.run_eq_error_iff.mpr
      ⟨a, Alphabet.firstOutside_eq_some_iff.mpr ⟨ha, u, v, hw, hu⟩, rfl⟩,
    exists_run_eq_ok hA⟩

/-- **Automata that accept the same words run alike**, faults included, if
they have the same alphabet. -/
theorem run_eq_of_accepts_iff (hA : A.WellFormed) (hB : B.WellFormed)
    (halphabet : A.alphabet = B.alphabet)
    (h : ∀ w, A.Accepts w ↔ B.Accepts w) (w : List α) : A.run w = B.run w := by
  cases hw : A.alphabet.firstOutside w with
  | some a =>
    have hw' : B.alphabet.firstOutside w = some a := by rw [← halphabet, hw]
    exact (Machine.run_eq_error_iff.mpr ⟨a, hw, rfl⟩).trans
      (Machine.run_eq_error_iff.mpr ⟨a, hw', rfl⟩).symm
  | none =>
    have hmem := Alphabet.firstOutside_eq_none_iff.mp hw
    obtain ⟨b, hb, hiff⟩ := exists_run_eq_ok hA hmem
    obtain ⟨b', hb', hiff'⟩ := exists_run_eq_ok hB (halphabet ▸ hmem)
    rw [hb, hb', Bool.eq_iff_iff.mpr (hiff.trans ((h w).trans hiff'.symm))]

/-! ## One after the other -/

/-- **A sequence answers by the splits of a word**: yes when the one answers
yes to a beginning of the word and the other to the rest. -/
theorem run_sequence_eq_ok_iff_split (hA : A.WellFormed) (hB : B.WellFormed)
    (hfit : A.fragmentSize + B.fragmentSize ≤ UInt32.size) (w : List α) :
    (∀ u a v, w = u ++ a :: v → (∀ b ∈ u, b ∈ A.alphabet ∪ B.alphabet) →
      a ∉ A.alphabet ∪ B.alphabet →
      (A.sequence B).run w = .error (.outsideSymbol a)) ∧
    ((∀ a ∈ w, a ∈ A.alphabet ∪ B.alphabet) →
      ∃ b, (A.sequence B).run w = .ok b ∧
        (b = true ↔
          ∃ x y, w = x ++ y ∧ A.run x = .ok true ∧ B.run y = .ok true)) := by
  have h := run_eq_error_and_exists_eq_ok (wellFormed_sequence hA hB) w
  rw [accepts_sequence_iff hA hB hfit] at h
  simp only [run_eq_ok_true_iff hA, run_eq_ok_true_iff hB]
  exact h

/-- The words of two digits in turn: the start is entered again, and both
states accept. -/
def alternating : NFA Char where
  alphabet := OrdSet.ofList ['0', '1']
  start := 7
  states := OrdSet.ofList [7, 4294967295]
  final := OrdSet.ofList [7, 4294967295]
  edges := EdgeSet.ofList
    [⟨7, .symbol '0', 4294967295⟩, ⟨4294967295, .symbol '1', 7⟩]

theorem wellFormed_alternating : alternating.WellFormed := by
  constructor <;> simp [alternating]

/-- A digit any number of times, another one between: the start is entered
again, and the accepting state is left again. -/
def separated : NFA Char where
  alphabet := OrdSet.ofList ['1', '2']
  start := 7
  states := OrdSet.ofList [7, 8]
  final := OrdSet.ofList [8]
  edges := EdgeSet.ofList [⟨7, .symbol '1', 8⟩, ⟨8, .symbol '2', 7⟩]

theorem wellFormed_separated : separated.WellFormed := by
  constructor <;> simp [separated]

/-- Both automata know the state seven and the digit one. A word that splits,
and a word with a letter that neither knows. -/
theorem run_alternating_sequence_separated :
    alternating.WellFormed ∧ separated.WellFormed ∧
      alternating.fragmentSize + separated.fragmentSize ≤ UInt32.size ∧
      (alternating.sequence separated).run ['0', '1', '1', '2', '1']
        = .ok true ∧
      (alternating.sequence separated).run ['2', 'x']
        = .error (.outsideSymbol 'x') := by
  have hfit : alternating.fragmentSize + separated.fragmentSize
      ≤ UInt32.size := by decide
  have hrun := run_sequence_eq_ok_iff_split wellFormed_alternating
    wellFormed_separated hfit
  refine ⟨wellFormed_alternating, wellFormed_separated, hfit, ?_, ?_⟩
  · obtain ⟨b, hb, hiff⟩ := (hrun ['0', '1', '1', '2', '1']).2
      (Alphabet.firstOutside_eq_none_iff.mp rfl)
    rw [hb, hiff.mpr ⟨['0', '1'], ['1', '2', '1'], rfl, by decide, by decide⟩]
  · exact (hrun ['2', 'x']).1 ['2'] 'x' [] rfl
      (Alphabet.firstOutside_eq_none_iff.mp rfl) (by decide)

/-! ## Either the one or the other -/

/-- **A choice answers by its two parts**: yes when the one or the other
answers yes. A part that does not know a symbol of the word refuses it, which
is no yes. -/
theorem run_choice_eq_ok_iff_either (hA : A.WellFormed) (hB : B.WellFormed)
    (hfit : A.fragmentSize + B.fragmentSize + 2 ≤ UInt32.size) (w : List α) :
    (∀ u a v, w = u ++ a :: v → (∀ b ∈ u, b ∈ A.alphabet ∪ B.alphabet) →
      a ∉ A.alphabet ∪ B.alphabet →
      (A.choice B).run w = .error (.outsideSymbol a)) ∧
    ((∀ a ∈ w, a ∈ A.alphabet ∪ B.alphabet) →
      ∃ b, (A.choice B).run w = .ok b ∧
        (b = true ↔ A.run w = .ok true ∨ B.run w = .ok true)) := by
  have h := run_eq_error_and_exists_eq_ok (wellFormed_choice hA hB) w
  rw [accepts_choice_iff hA hB hfit] at h
  simp only [run_eq_ok_true_iff hA, run_eq_ok_true_iff hB]
  exact h

/-- A word that only the one accepts and that the other refuses for a foreign
digit, a word of digits of both that neither accepts, and a word with a letter
that neither knows. -/
theorem run_alternating_choice_separated :
    alternating.WellFormed ∧ separated.WellFormed ∧
      alternating.fragmentSize + separated.fragmentSize + 2 ≤ UInt32.size ∧
      alternating.run ['1', '2', '1'] = .error (.outsideSymbol '2') ∧
      (alternating.choice separated).run ['1', '2', '1'] = .ok true ∧
      (alternating.choice separated).run ['0', '2'] = .ok false ∧
      (alternating.choice separated).run ['2', 'x']
        = .error (.outsideSymbol 'x') := by
  have hfit : alternating.fragmentSize + separated.fragmentSize + 2
      ≤ UInt32.size := by decide
  have hrun := run_choice_eq_ok_iff_either wellFormed_alternating
    wellFormed_separated hfit
  refine ⟨wellFormed_alternating, wellFormed_separated, hfit, by decide,
    ?_, ?_, ?_⟩
  · obtain ⟨b, hb, hiff⟩ := (hrun ['1', '2', '1']).2
      (Alphabet.firstOutside_eq_none_iff.mp rfl)
    rw [hb, hiff.mpr (Or.inr (by decide))]
  · obtain ⟨b, hb, hiff⟩ := (hrun ['0', '2']).2
      (Alphabet.firstOutside_eq_none_iff.mp rfl)
    have hno : b ≠ true := fun h => absurd (hiff.mp h) (by decide)
    rw [hb, Bool.eq_false_iff.mpr hno]
  · exact (hrun ['2', 'x']).1 ['2'] 'x' [] rfl
      (Alphabet.firstOutside_eq_none_iff.mp rfl) (by decide)

/-! ## Any number of times -/

/-- **A star answers by the pieces of a word**: yes when the word falls into
any number of pieces, none for the empty word, that are all answered yes. -/
theorem run_star_eq_ok_iff_pieces (hA : A.WellFormed)
    (hfit : A.fragmentSize + 2 ≤ UInt32.size) :
    A.star.alphabet = A.alphabet ∧
      ∀ w : List α, (∀ a ∈ w, a ∈ A.alphabet) →
        ∃ b, A.star.run w = .ok b ∧
          (b = true ↔ ∃ ws : List (List α), w = ws.flatten ∧
            ∀ x ∈ ws, A.run x = .ok true) := by
  refine ⟨rfl, fun w hw => ?_⟩
  have h := (run_eq_error_and_exists_eq_ok (wellFormed_star hA) w).2 hw
  rw [accepts_star_iff hA hfit] at h
  simp only [run_eq_ok_true_iff hA]
  exact h

/-- A word in three pieces, where the start is passed inside the first. -/
theorem run_alternating_star :
    alternating.WellFormed ∧ alternating.fragmentSize + 2 ≤ UInt32.size ∧
      alternating.star.run ['0', '1', '0', '0', '0', '1'] = .ok true := by
  have hfit : alternating.fragmentSize + 2 ≤ UInt32.size := by decide
  refine ⟨wellFormed_alternating, hfit, ?_⟩
  obtain ⟨b, hb, hiff⟩ :=
    (run_star_eq_ok_iff_pieces wellFormed_alternating hfit).2
      ['0', '1', '0', '0', '0', '1']
      (Alphabet.firstOutside_eq_none_iff.mp rfl)
  rw [hb, hiff.mpr ⟨[['0', '1', '0'], ['0'], ['0', '1']], rfl, by decide⟩]

end Recognizer.NFA
