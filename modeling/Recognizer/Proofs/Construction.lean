import Recognizer.Proofs.Limits
import Recognizer.Proofs.RoundTrip

/-!
# Automata of trees accept what the trees match

With no limit on states and room for the ids nothing is left to go wrong but
the depth of a tree. What is built then realizes the tree
(`Regex.exists_toNFA_realizes`), and a run of it tells for every word over
the alphabet whether the tree matches the word. The tree of a pattern is no
exception: it is no higher than the limit on nesting, because it was read, and
a node is never deeper than its tree is high.
-/

namespace Recognizer

namespace Regex

variable {α : Type} [LinearOrd α] {S : Alphabet α}

/-- **Within the limits a tree has an automaton**, and it realizes the
tree. -/
theorem exists_toNFA_realizes {L : Limits} {t : Regex α}
    (hS : ∀ a ∈ t.leaves, a ∈ S) (hL : L.states = none)
    (hd : t.depth ≤ L.nesting) (hfit : t.extent.states ≤ UInt32.size) :
    ∃ A, t.toNFA S L = .ok A ∧ A.Realizes S t.extent t.language := by
  have hnone : ∀ limit, L.states = some limit → t.extent.states ≤ limit :=
    fun limit hlimit => absurd (hL.symm.trans hlimit) nofun
  exact ⟨_, (toNFA_outcome hS).realizes hd (Or.inl hfit) hnone⟩

end Regex

/-- An automaton that realizes a tree answers for every word over its
alphabet whether the tree matches it. -/
theorem NFA.Realizes.exists_run_eq_ok {α : Type} [LinearOrd α]
    {S : Alphabet α} {A : NFA α} {t : Regex α}
    (hA : A.Realizes S t.extent t.language) {w : List α}
    (hw : ∀ a ∈ w, a ∈ S) :
    ∃ b, A.run w = .ok b ∧ (b = true ↔ t.Matches w) := by
  obtain ⟨b, hb, hiff⟩ :=
    NFA.exists_run_eq_ok hA.wellFormed (hA.alphabet_eq.symm ▸ hw)
  refine ⟨b, hb, ?_⟩
  rw [hiff, ← NFA.mem_language, hA.language_eq, Regex.mem_language]

/-- **Built automata mean what the trees say.** A tree over symbols of the
alphabet, with no node deeper than the limit and an extent that fits into the
ids, has an automaton over that alphabet; it is as large as the extent says,
and for every word over the alphabet it answers whether the tree matches the
word. A pattern that can be read has the automaton of its tree. -/
theorem Regex.toNFA_and_ofPattern_run_iff_matches :
    (∀ (α : Type) [LinearOrd α] (S : Alphabet α) (L : Limits) (t : Regex α),
      (∀ a ∈ t.leaves, a ∈ S) → L.states = none → t.depth ≤ L.nesting →
      t.extent.states ≤ UInt32.size →
      ∃ A, t.toNFA S L = .ok A ∧ A.alphabet = S ∧ A.size = t.extent.states ∧
        ∀ w, (∀ a ∈ w, a ∈ S) →
          ∃ b, A.run w = .ok b ∧ (b = true ↔ t.Matches w)) ∧
    (∀ (S : Alphabet Char) (L : Limits) (pattern : String) (t : Regex Char),
      Regex.ofPattern L.nesting pattern = .ok t → (∀ a ∈ t.leaves, a ∈ S) →
      L.states = none → t.extent.states ≤ UInt32.size →
      ∃ A, NFA.ofPattern S L pattern = .ok A ∧ A.alphabet = S ∧
        ∀ w, (∀ a ∈ w, a ∈ S) →
          ∃ b, A.run w = .ok b ∧ (b = true ↔ t.Matches w)) := by
  refine ⟨fun α _ S L t hS hL hd hfit => ?_,
    fun S L pattern t ht hS hL hfit => ?_⟩
  · obtain ⟨A, hA, hreal⟩ := exists_toNFA_realizes hS hL hd hfit
    exact ⟨A, hA, hreal.alphabet_eq, hreal.size_eq,
      fun w hw => hreal.exists_run_eq_ok hw⟩
  · -- a tree that was read is no higher than the limit, and no deeper
    have hd : t.depth ≤ L.nesting :=
      Nat.le_trans t.depth_le_height (canonical_of_ofPattern ht).2.1
    obtain ⟨A, hA, hreal⟩ := exists_toNFA_realizes hS hL hd hfit
    refine ⟨A, ?_, hreal.alphabet_eq, fun w hw => hreal.exists_run_eq_ok hw⟩
    rw [NFA.ofPattern, ht]
    exact hA

/-- An optional letter between words of another one, its absence an empty
sequence. -/
def Regex.optionalLetter : Regex Char :=
  .sequence [.star (.literal 'b'),
    .group (.choice [.literal 'a', .sequence []]), .star (.literal 'b')]

/-- A pattern for the words that end in a certain letter. -/
def Regex.lastLetter : Regex Char :=
  .sequence [.star (.group (.choice [.literal 'a', .literal 'b'])),
    .literal 'a']

/-- A tree that no pattern spells, and the tree of a pattern. -/
theorem Regex.run_optionalLetter_and_lastLetter_iff_matches :
    ((∀ a ∈ optionalLetter.leaves, a ∈ Alphabet.ofString "ab") ∧
      optionalLetter.depth ≤ ({} : Limits).nesting ∧
      optionalLetter.extent.states ≤ UInt32.size ∧
      ∃ A, optionalLetter.toNFA (Alphabet.ofString "ab") {} = .ok A ∧
        ∃ b, A.run ['b', 'a', 'b'] = .ok b ∧
          (b = true ↔ optionalLetter.Matches ['b', 'a', 'b'])) ∧
    (Regex.ofPattern ({} : Limits).nesting "(a|b)*a" = .ok lastLetter ∧
      (∀ a ∈ lastLetter.leaves, a ∈ Alphabet.ofString "ab") ∧
      lastLetter.extent.states ≤ UInt32.size ∧
      ∃ A, NFA.ofPattern (Alphabet.ofString "ab") {} "(a|b)*a" = .ok A ∧
        ∃ b, A.run ['b', 'a'] = .ok b ∧
          (b = true ↔ lastLetter.Matches ['b', 'a'])) := by
  obtain ⟨htree, hpattern⟩ := toNFA_and_ofPattern_run_iff_matches
  refine ⟨?_, ?_⟩
  · have hS : ∀ a ∈ optionalLetter.leaves, a ∈ Alphabet.ofString "ab" :=
      Alphabet.firstOutside_eq_none_iff.mp rfl
    have hw : ∀ a ∈ ['b', 'a', 'b'], a ∈ Alphabet.ofString "ab" :=
      Alphabet.firstOutside_eq_none_iff.mp rfl
    have hfit : optionalLetter.extent.states ≤ UInt32.size := by decide
    obtain ⟨A, hA, -, -, hrun⟩ :=
      htree Char _ {} optionalLetter hS rfl (by decide) hfit
    exact ⟨hS, by decide, hfit, A, hA, hrun _ hw⟩
  · have hread : Regex.ofPattern ({} : Limits).nesting "(a|b)*a"
        = .ok lastLetter := rfl
    have hS : ∀ a ∈ lastLetter.leaves, a ∈ Alphabet.ofString "ab" :=
      Alphabet.firstOutside_eq_none_iff.mp rfl
    have hw : ∀ a ∈ ['b', 'a'], a ∈ Alphabet.ofString "ab" :=
      Alphabet.firstOutside_eq_none_iff.mp rfl
    have hfit : lastLetter.extent.states ≤ UInt32.size := by decide
    obtain ⟨A, hA, -, hrun⟩ := hpattern _ {} _ lastLetter hread hS rfl hfit
    exact ⟨hread, hS, hfit, A, hA, hrun _ hw⟩

end Recognizer
