import Recognizer.Proofs.Determinization
import Recognizer.Proofs.Limits

/-!
# A larger alphabet makes no difference

The automaton of a tree is built over an alphabet, and the alphabet may have more
symbols than the tree. Such symbols do nothing. Over a larger alphabet the same
steps are taken, the same limits are met with, and the automaton is the same but
for its alphabet (`Regex.nodeNFA_rebase`).

For the deterministic automaton this is not as plain, since the sets of states
are discovered in the order of the symbols, and new symbols may come before, after
and between the old ones. But a symbol that is on no transition leads nowhere
from any set (`NFA.nextSet?_eq_none`). It takes no place in the list of those
that do lead somewhere, and so no set is discovered earlier or later
(`NFA.subsets_rebase`).
-/

namespace Recognizer

variable {α : Type} [LinearOrd α]

theorem OrdSet.union_self (s : OrdSet α) : s ∪ s = s :=
  Std.ExtTreeSet.ext_mem fun a => by
    rw [Std.ExtTreeSet.mem_union_iff, or_self]

/-- **What a function makes of a set's members**, in order, is what it makes of
those it is defined on. -/
theorem OrdSet.filterMap_toList_of_subset {β : Type} {s t : OrdSet α}
    {f : α → Option β} (hst : ∀ a ∈ s, a ∈ t)
    (hf : ∀ a ∈ t, a ∉ s → f a = none) :
    t.toList.filterMap f = s.toList.filterMap f := by
  have hs : s.toList = t.toList.filter fun a => a ∈ s :=
    toList_eq_of_ascending (Std.ExtTreeSet.ordered_toList.filter _) fun a => by
      simpa using hst a
  rw [hs, List.filterMap_filter]
  refine List.filterMap_congr fun a ha => ?_
  by_cases has : a ∈ s
  · simp [has]
  · simp [has, hf a (Std.ExtTreeSet.mem_toList.mp ha) has]

namespace NFA

variable {S : Alphabet α}

/-- The automaton with another alphabet. -/
def rebase (S : Alphabet α) (A : NFA α) : NFA α :=
  { A with alphabet := S }

/-! ## The same steps -/

theorem sequence_rebase (S : Alphabet α) (A B : NFA α) :
    (A.rebase S).sequence (B.rebase S) = (A.sequence B).rebase S :=
  congrArg (fun T => (A.sequence B).rebase T) (OrdSet.union_self S)

theorem choice_rebase (S : Alphabet α) (A B : NFA α) :
    (A.rebase S).choice (B.rebase S) = (A.choice B).rebase S :=
  congrArg (fun T => (A.choice B).rebase T) (OrdSet.union_self S)

theorem allow_rebase (S : Alphabet α) (L : Limits) (A : NFA α) :
    L.allow (A.rebase S) = (L.allow A).map (rebase S) := by
  unfold Limits.allow
  cases L.states with
  | none => rfl
  | some limit =>
    exact (apply_ite (Except.map (rebase S)) (limit < A.size)
      (Except.error (Fault.tooManyStates limit A.size)) (.ok A)).symm

/-- **Steps that change with the alphabet only** make a construction that does. -/
theorem bind_rebase {x : Except (Fault α) (NFA α)}
    {f g : NFA α → Except (Fault α) (NFA α)}
    (h : ∀ A, g (A.rebase S) = (f A).map (rebase S)) :
    (x.map (rebase S)).bind g = (x.bind f).map (rebase S) := by
  cases x with
  | error e => rfl
  | ok A => exact h A

theorem descend_rebase {L : Limits} {depth : Nat}
    {x y : Except (Fault α) (NFA α)} (h : y = x.map (rebase S)) :
    ((L.descend depth).bind fun _ => y)
      = ((L.descend depth).bind fun _ => x).map (rebase S) := by
  rw [h]
  cases (L.descend depth : Except (Fault α) Unit) <;> rfl

end NFA

namespace Regex

variable {S S' : Alphabet α} {L : Limits} {t : Regex α} {ts : List (Regex α)}
  {combine : NFA α → NFA α → NFA α} {depth : Nat} {A : NFA α}

theorem combineNFA_rebase
    (hcombine : ∀ A B,
      combine (A.rebase S') (B.rebase S') = (combine A B).rebase S')
    (hts : ∀ t ∈ ts,
      t.nodeNFA S' L depth = (t.nodeNFA S L depth).map (NFA.rebase S')) :
    combineNFA S' L combine ts depth (A.rebase S')
      = (combineNFA S L combine ts depth A).map (NFA.rebase S') := by
  induction ts generalizing A with
  | nil => rfl
  | cons t ts ih =>
    unfold combineNFA
    rw [hts t List.mem_cons_self]
    refine NFA.bind_rebase fun B => ?_
    -- the limit looks at the states only
    rw [hcombine, NFA.allow_rebase]
    exact NFA.bind_rebase fun C => ih fun u hu =>
      hts u (List.mem_cons_of_mem _ hu)

theorem itemsNFA_rebase
    (hcombine : ∀ A B,
      combine (A.rebase S') (B.rebase S') = (combine A B).rebase S')
    (hts : ∀ t ∈ ts,
      t.nodeNFA S' L depth = (t.nodeNFA S L depth).map (NFA.rebase S'))
    (acceptsEmpty : Bool) :
    itemsNFA S' L combine acceptsEmpty ts depth
      = (itemsNFA S L combine acceptsEmpty ts depth).map (NFA.rebase S') := by
  cases ts with
  | nil => rfl
  | cons t ts =>
    unfold itemsNFA
    rw [hts t List.mem_cons_self]
    exact NFA.bind_rebase fun A => combineNFA_rebase hcombine fun u hu =>
      hts u (List.mem_cons_of_mem _ hu)

/-- **A node is built alike over two alphabets** that have its symbols: with the
same fault, or with automata that differ in the alphabet only. -/
theorem nodeNFA_rebase (hS : ∀ a ∈ t.leaves, a ∈ S)
    (hS' : ∀ a ∈ t.leaves, a ∈ S') (depth : Nat) :
    t.nodeNFA S' L depth = (t.nodeNFA S L depth).map (NFA.rebase S') := by
  induction t using Regex.induction generalizing depth with
  | literal a =>
    unfold nodeNFA
    rw [NFA.single_eq_letter (hS a List.mem_cons_self),
      NFA.single_eq_letter (hS' a List.mem_cons_self)]
    exact NFA.descend_rebase (NFA.allow_rebase S' L (NFA.letter S a))
  | sequence ts ih =>
    unfold nodeNFA
    rw [itemsNFA_rebase (S := S) (NFA.sequence_rebase S') fun u hu => ih u hu
      (fun a ha => hS a (leaves_subset_leavesOfItems hu ha))
      (fun a ha => hS' a (leaves_subset_leavesOfItems hu ha)) (depth + 1)]
    exact NFA.descend_rebase (NFA.bind_rebase (NFA.allow_rebase S' L))
  | choice ts ih =>
    unfold nodeNFA
    rw [itemsNFA_rebase (S := S) (NFA.choice_rebase S') fun u hu => ih u hu
      (fun a ha => hS a (leaves_subset_leavesOfItems hu ha))
      (fun a ha => hS' a (leaves_subset_leavesOfItems hu ha)) (depth + 1)]
    exact NFA.descend_rebase (NFA.bind_rebase (NFA.allow_rebase S' L))
  | star t ih =>
    unfold nodeNFA
    rw [ih hS hS' (depth + 1)]
    exact NFA.descend_rebase (NFA.bind_rebase fun A =>
      NFA.allow_rebase S' L A.star)
  | group t ih =>
    unfold nodeNFA
    rw [ih hS hS' (depth + 1)]
    exact NFA.descend_rebase (NFA.bind_rebase (NFA.allow_rebase S' L))

/-- **A tree is built alike over two alphabets** that have its symbols. -/
theorem toNFA_rebase (hS : ∀ a ∈ t.leaves, a ∈ S)
    (hS' : ∀ a ∈ t.leaves, a ∈ S') :
    t.toNFA S' L = (t.toNFA S L).map (NFA.rebase S') := by
  unfold toNFA
  rw [literals_eq_leaves, Alphabet.firstOutside_eq_none_iff.mpr hS,
    Alphabet.firstOutside_eq_none_iff.mpr hS']
  exact nodeNFA_rebase hS hS' 0

/-- **What is built over an alphabet has that alphabet.** Built over it once more
it is the same, and that is to be put over the alphabet. -/
theorem alphabet_of_toNFA (hS : ∀ a ∈ t.leaves, a ∈ S)
    (h : t.toNFA S L = .ok A) : A.alphabet = S := by
  have hrebase := toNFA_rebase (L := L) hS hS
  rw [h] at hrebase
  exact congrArg NFA.alphabet (Except.ok.inj hrebase)

end Regex

/-! ## Sets of states -/

/-- The automaton with another alphabet. -/
def DFA.rebase (S : Alphabet α) (D : DFA α) : DFA α :=
  { D with alphabet := S }

namespace NFA

variable {A : NFA α} {S : Alphabet α} {Q : States} {a : α}

/-- **A symbol from outside the alphabet leads nowhere.** -/
theorem nextSet?_eq_none (hA : A.WellFormed) (ha : a ∉ A.alphabet) :
    A.nextSet? Q a = none := by
  refine Option.eq_none_iff_forall_ne_some.mpr fun T hT => ?_
  obtain ⟨-, r, hr⟩ := nextSet?_eq_some_iff.mp hT
  obtain ⟨q, -, p, he, -⟩ := (mem_nextSet?_iff hA).mp ⟨T, hT, hr⟩
  exact ha (hA.symbol_mem _ he a rfl)

section Larger

variable (hA : A.WellFormed) (hS : ∀ a ∈ A.alphabet, a ∈ S)
include hA hS

/-- **More symbols lead nowhere else.** -/
theorem successors_rebase : (A.rebase S).successors = A.successors :=
  funext fun Q => OrdSet.filterMap_toList_of_subset (f := A.nextSet? Q) hS
    fun _ _ ha => nextSet?_eq_none hA ha

/-- **No set is discovered earlier or later.** -/
theorem subsets_rebase : (A.rebase S).subsets = A.subsets :=
  congrArg (fun next => discover (Nat.pow 2 A.size) next [A.startSet])
    (successors_rebase hA hS)

theorem subsetTransitions_rebase (ids : OrdMap States State) (Q : States) :
    (A.rebase S).subsetTransitions ids Q = A.subsetTransitions ids Q :=
  OrdSet.filterMap_toList_of_subset hS fun a _ ha => by
    show (A.nextSet? Q a).map _ = none
    rw [nextSet?_eq_none hA ha, Option.map_none]

/-- **The deterministic automaton is the same** but for its alphabet, down to the
numbers of its states. -/
theorem determinize_rebase :
    (A.rebase S).determinize = A.determinize.rebase S := by
  have htransitions : (A.rebase S).subsetTransitions = A.subsetTransitions :=
    funext fun ids => funext fun Q => subsetTransitions_rebase hA hS ids Q
  unfold determinize
  rw [subsets_rebase hA hS, htransitions]
  rfl

end Larger

end NFA

/-! ## The same answers -/

/-- **A word over two alphabets** has the same answer under either. -/
theorem Machine.run_rebase {σ : Type} (M : Machine α σ) {S : Alphabet α}
    {w : List α} (hw : ∀ a ∈ w, a ∈ M.alphabet) (hS : ∀ a ∈ w, a ∈ S) :
    ({ M with alphabet := S } : Machine α σ).run w = M.run w := by
  rw [run_of_forall_mem hw, run_of_forall_mem (M := { M with alphabet := S }) hS]
  rfl

/-- **A larger alphabet changes no matching.** A tree is refused for the same
reason over two alphabets, one within the other, or built as the same automaton
but for the alphabet. The deterministic automata differ no more, down to the
numbers of their states. So over the smaller alphabet all four give the same
answers, as long as there are ids for the sets of states. -/
theorem Regex.toNFA_over_larger_alphabet {S S' : Alphabet α} {t : Regex α}
    (hS : ∀ a ∈ t.literals, a ∈ S) (hS' : ∀ a ∈ S, a ∈ S') (L : Limits) :
    (∃ f, t.toNFA S L = .error f ∧ t.toNFA S' L = .error f) ∨
    ∃ A, t.toNFA S L = .ok A ∧ t.toNFA S' L = .ok (A.rebase S') ∧
      A.alphabet = S ∧
      (A.rebase S').determinize = A.determinize.rebase S' ∧
      ∀ w, (∀ a ∈ w, a ∈ S) →
        (A.rebase S').run w = A.run w ∧
        (A.rebase S').determinize.run w = A.determinize.run w ∧
        (A.subsets.length ≤ UInt32.size → A.determinize.run w = A.run w) := by
  rw [literals_eq_leaves] at hS
  have hrebase : t.toNFA S' L = (t.toNFA S L).map (NFA.rebase S') :=
    toNFA_rebase hS fun a ha => hS' a (hS a ha)
  rw [hrebase]
  cases hA : t.toNFA S L with
  | error f => exact Or.inl ⟨f, rfl, rfl⟩
  | ok A =>
    have hwf := wellFormed_of_toNFA hA
    obtain rfl := alphabet_of_toNFA hS hA
    have hdeterminize := NFA.determinize_rebase hwf hS'
    refine Or.inr ⟨A, rfl, rfl, rfl, hdeterminize, fun w hw => ⟨?_, ?_, ?_⟩⟩
    · exact A.machine.run_rebase hw fun a ha => hS' a (hw a ha)
    · rw [hdeterminize]
      exact A.determinize.machine.run_rebase hw fun a ha => hS' a (hw a ha)
    · exact fun hfit => NFA.run_determinize hwf hfit w

/-- One letter any number of times, and then another one. -/
def Regex.lettersThenLast : Regex Char :=
  .sequence [.star (.literal 'b'), .literal 'd']

/-- Letters that the tree does not have come before, between and after those that
it has. Its automaton has too many states for a limit over either alphabet. -/
theorem Regex.toNFA_over_larger_alphabet_lettersThenLast :
    (∃ A, lettersThenLast.toNFA (Alphabet.ofString "bd") {} = .ok A ∧
      lettersThenLast.toNFA (Alphabet.ofString "abcde") {}
        = .ok (A.rebase (Alphabet.ofString "abcde")) ∧
      (A.rebase (Alphabet.ofString "abcde")).determinize
        = A.determinize.rebase (Alphabet.ofString "abcde") ∧
      (A.rebase (Alphabet.ofString "abcde")).run ['b', 'd'] = A.run ['b', 'd'] ∧
      A.determinize.run ['b', 'd'] = A.run ['b', 'd']) ∧
    ∃ f, lettersThenLast.toNFA (Alphabet.ofString "bd") ⟨some 5, 250⟩
        = .error f ∧
      lettersThenLast.toNFA (Alphabet.ofString "abcde") ⟨some 5, 250⟩
        = .error f := by
  have hleaves : ∀ a ∈ lettersThenLast.leaves, a ∈ Alphabet.ofString "bd" :=
    Alphabet.firstOutside_eq_none_iff.mp rfl
  have hS : ∀ a ∈ lettersThenLast.literals, a ∈ Alphabet.ofString "bd" := by
    rwa [literals_eq_leaves]
  have hS' : ∀ a ∈ Alphabet.ofString "bd", a ∈ Alphabet.ofString "abcde" := by
    intro a ha
    simp only [Alphabet.ofString, OrdSet.mem_ofList] at ha ⊢
    exact List.Sublist.subset (by decide) ha
  have hw : ∀ a ∈ ['b', 'd'], a ∈ Alphabet.ofString "bd" :=
    Alphabet.firstOutside_eq_none_iff.mp rfl
  have hroom : ∀ L : Limits, L.Room lettersThenLast.extent.states :=
    fun _ => Or.inl (by decide)
  have hnone : ∀ limit, ({} : Limits).states = some limit →
      lettersThenLast.extent.states ≤ limit := by
    rintro limit ⟨⟩
  refine ⟨?_, ?_⟩
  · obtain ⟨hbuilt, -⟩ := (toNFA_outcome (L := {}) hleaves).realizes (by decide)
      (hroom {}) hnone
    rcases toNFA_over_larger_alphabet hS hS' {} with
      ⟨f, hf, -⟩ | ⟨A, hA, hA', -, hdeterminize, hrun⟩
    · rw [hbuilt] at hf
      cases hf
    · have hfit : A.subsets.length ≤ UInt32.size := by
        obtain rfl := Except.ok.inj (hbuilt.symm.trans hA)
        decide +kernel
      obtain ⟨hnfa, -, hdfa⟩ := hrun _ hw
      exact ⟨A, hA, hA', hdeterminize, hnfa, hdfa hfit⟩
  · obtain ⟨n, -, -, hrefused⟩ :=
      (toNFA_outcome (L := ⟨some 5, 250⟩) hleaves).exists_tooManyStates
        (by decide) (hroom _) rfl (by decide)
    rcases toNFA_over_larger_alphabet hS hS' ⟨some 5, 250⟩ with
      hf | ⟨A, hA, -⟩
    · exact hf
    · rw [hrefused] at hA
      cases hA

end Recognizer
