import Recognizer.Proofs.Answers
import Recognizer.Proofs.Associativity
import Recognizer.Proofs.Outcomes

/-!
# Sequences in sequences make no difference

A sequence that is an item of a sequence may give way to its own items. What
the items stand for is combined in another order then, and where the way of
combining is associative the same comes of it (`Interpretation.eval_unnest`).
Extents are combined associatively whatever they are, and automata wherever
there are ids for all of their states (`NFA.sequence_assoc`). So the automaton
of a tree does not tell where its sequences were nested
(`Regex.Unnests.automaton_eq`).

An empty sequence cannot give way, for its automaton has a state and no items
would have none. And the nesting does count for the limit on depths, which may
refuse the nested tree alone (`Regex.Unnests.toNFA_eq_ok_iff`).
-/

namespace Recognizer

/-! ## Items among items -/

namespace Interpretation

variable {α β : Type} (I : Interpretation α β) {combine : β → β → β}
  {t u : Regex α} {ts us : List (Regex α)}

theorem evalRest_append (ts us : List (Regex α)) (b : β) :
    I.evalRest combine (ts ++ us) b
      = I.evalRest combine us (I.evalRest combine ts b) := by
  simp only [evalRest_eq_foldl, List.foldl_append]

/-- The value of an item is all that matters of it. -/
theorem evalItems_congr (h : I.eval t = I.eval u) (acceptsEmpty : Bool)
    (us vs : List (Regex α)) :
    I.evalItems combine acceptsEmpty (us ++ t :: vs)
      = I.evalItems combine acceptsEmpty (us ++ u :: vs) := by
  cases us with
  | nil =>
    show I.evalRest combine vs (I.eval t) = I.evalRest combine vs (I.eval u)
    rw [h]
  | cons w us =>
    show I.evalRest combine (us ++ t :: vs) _
      = I.evalRest combine (us ++ u :: vs) _
    simp only [evalRest_append, evalRest, h]

/-- Items of a sequence go on from those before them. -/
theorem eval_sequence_append (hus : us ≠ []) (vs : List (Regex α)) :
    I.eval (.sequence (us ++ vs))
      = I.evalRest I.sequence vs (I.eval (.sequence us)) := by
  obtain ⟨u, us, rfl⟩ := List.exists_cons_of_ne_nil hus
  exact I.evalRest_append us vs _

/-- **A sequence in a sequence gives way to its items**, if it can be combined
as a whole with what stands before it. -/
theorem eval_unnest (hts : ts ≠ [])
    (h : us ≠ [] → I.sequence (I.eval (.sequence us)) (I.eval (.sequence ts))
      = I.evalRest I.sequence ts (I.eval (.sequence us)))
    (vs : List (Regex α)) :
    I.eval (.sequence (us ++ .sequence ts :: vs))
      = I.eval (.sequence (us ++ ts ++ vs)) := by
  by_cases hus : us = []
  · subst hus
    rw [List.nil_append, List.nil_append, I.eval_sequence_append hts]
    rfl
  · rw [List.append_assoc, I.eval_sequence_append hus,
      I.eval_sequence_append hus, evalRest, h hus, evalRest_append]

end Interpretation

/-! ## Extents -/

theorem Extent.sequence_assoc (e f g : Extent) :
    (e.sequence f).sequence g = e.sequence (f.sequence g) := by
  show Extent.mk (e.fragmentSize + f.fragmentSize + g.fragmentSize) 1
    = Extent.mk (e.fragmentSize + (f.fragmentSize + g.fragmentSize)) 1
  rw [Nat.add_assoc]

instance : Std.Associative Extent.sequence := ⟨Extent.sequence_assoc⟩

namespace Regex

section Extents

variable {α : Type} {t u : Regex α} {ts us vs : List (Regex α)}

/-- A sequence of extents is combined as a whole or item by item. -/
theorem sequence_extent (e : Extent) (hts : ts ≠ []) :
    e.sequence (sequence ts).extent
      = (Extent.interpretation α).evalRest Extent.sequence ts e := by
  obtain ⟨t, ts, rfl⟩ := List.exists_cons_of_ne_nil hts
  show e.sequence ((Extent.interpretation α).evalRest Extent.sequence ts _) = _
  simp only [Interpretation.evalRest_eq_foldl, List.foldl_cons,
    ← List.foldl_map, List.foldl_assoc]

/-- What two parts take further items take with them. -/
theorem fragmentSize_add_le_evalRest (ts : List (Regex α)) (f : Extent)
    (t : Regex α) :
    f.fragmentSize + t.extent.fragmentSize
      ≤ ((Extent.interpretation α).evalRest Extent.sequence ts
        (f.sequence t.extent)).fragmentSize :=
  Nat.le_trans (states_le_evalRest (fun _ _ => Nat.le_refl _) ts
    (f.sequence t.extent)) (Extent.states_le_fragmentSize _)

/-- No item has more states than all items together. -/
theorem states_le_evalItems {measure : Extent → Extent → Extent}
    (h : ∀ e f, e.fragmentSize + f.fragmentSize ≤ (measure e f).states)
    (acceptsEmpty : Bool) (us vs : List (Regex α)) (t : Regex α) :
    t.extent.states ≤ ((Extent.interpretation α).evalItems measure
      acceptsEmpty (us ++ t :: vs)).states := by
  cases us with
  | nil => exact states_le_evalRest h vs t.extent
  | cons u us =>
    show _ ≤ ((Extent.interpretation α).evalRest measure (us ++ t :: vs) _).states
    rw [Interpretation.evalRest_append]
    refine Nat.le_trans ?_ (states_le_evalRest h vs _)
    exact Nat.le_trans t.extent.states_le_fragmentSize
      (Nat.le_trans (Nat.le_add_left ..) (h _ t.extent))

end Extents

/-! ## Automata -/

section Automata

variable {α : Type} [LinearOrd α] {S : Alphabet α} {A B : NFA α}
  {e f : Extent} {l m : Language α} {t : Regex α} {ts : List (Regex α)}

/-- **The automaton of a tree is as it was foreseen**, if there are ids for
it. -/
theorem automaton_realizes (hS : ∀ a ∈ t.leaves, a ∈ S)
    (hfit : t.extent.states ≤ UInt32.size) :
    (t.automaton S).Realizes S t.extent t.language :=
  ((toNFA_outcome (L := ⟨none, t.depth⟩) hS).realizes (Nat.le_refl _)
    (Or.inl hfit) nofun).2

/-- Further items go on from a sequence as from its second part. -/
theorem sequence_evalRest (hA : A.Realizes S e l) (hB : B.Realizes S f m)
    (hts : ∀ t ∈ ts, ∀ a ∈ t.leaves, a ∈ S)
    (hfit : (e.sequence ((Extent.interpretation α).evalRest Extent.sequence ts
      f)).states ≤ UInt32.size) :
    A.sequence ((NFA.interpretation S).evalRest NFA.sequence ts B)
      = (NFA.interpretation S).evalRest NFA.sequence ts (A.sequence B) := by
  induction ts generalizing B f m with
  | nil => rfl
  | cons t ts ih =>
    obtain ⟨ht, hts⟩ := List.forall_mem_cons.mp hts
    -- the states of the three parts are among those of the whole
    have hall : e.fragmentSize + ((Extent.interpretation α).evalRest
        Extent.sequence ts (f.sequence t.extent)).fragmentSize
          ≤ UInt32.size := hfit
    have hparts := fragmentSize_add_le_evalRest ts f t
    have hsize := t.extent.states_le_fragmentSize
    have hC := automaton_realizes ht (by omega)
    have hBC := hB.sequence hC
      (show f.fragmentSize + t.extent.fragmentSize ≤ UInt32.size by omega)
    have hassoc : A.sequence (B.sequence (t.automaton S))
        = (A.sequence B).sequence (t.automaton S) := by
      refine (NFA.sequence_assoc hA.wellFormed hB.wellFormed hC.wellFormed
        ?_).symm
      rw [hA.fragmentSize_eq, hB.fragmentSize_eq, hC.fragmentSize_eq]
      omega
    exact (ih hBC hts hfit).trans
      (congrArg ((NFA.interpretation S).evalRest NFA.sequence ts) hassoc)

/-- **A sequence of automata is combined as a whole or item by item**, if there
are ids for all states. -/
theorem sequence_automaton (hA : A.Realizes S e l) (hne : ts ≠ [])
    (hts : ∀ a ∈ (sequence ts).leaves, a ∈ S)
    (hfit : (e.sequence (sequence ts).extent).states ≤ UInt32.size) :
    A.sequence ((sequence ts).automaton S)
      = (NFA.interpretation S).evalRest NFA.sequence ts A := by
  obtain ⟨t, ts, rfl⟩ := List.exists_cons_of_ne_nil hne
  have hleaves : ∀ u ∈ t :: ts, ∀ a ∈ u.leaves, a ∈ S := fun u hu a ha =>
    hts a (leaves_subset_leavesOfItems hu ha)
  have hB := automaton_realizes (hleaves t List.mem_cons_self) <|
    calc t.extent.states
        ≤ (sequence (t :: ts)).extent.states :=
          states_le_evalItems (fun _ _ => Nat.le_refl _) true [] ts t
      _ ≤ (sequence (t :: ts)).extent.fragmentSize :=
          Extent.states_le_fragmentSize _
      _ ≤ (e.sequence (sequence (t :: ts)).extent).states :=
          Nat.le_add_left ..
      _ ≤ UInt32.size := hfit
  exact sequence_evalRest hA hB
    (fun u hu => hleaves u (List.mem_cons_of_mem _ hu)) hfit

/-- **A sequence in a sequence gives way to its items**, if there are ids for
all states. -/
theorem automaton_unnest (hne : ts ≠ []) (us vs : List (Regex α))
    (hS : ∀ a ∈ (sequence (us ++ sequence ts :: vs)).leaves, a ∈ S)
    (hfit : (sequence (us ++ sequence ts :: vs)).extent.states
      ≤ UInt32.size) :
    (sequence (us ++ sequence ts :: vs)).automaton S
      = (sequence (us ++ ts ++ vs)).automaton S := by
  refine Interpretation.eval_unnest _ hne (fun hus => ?_) vs
  have hleaves : (sequence (us ++ sequence ts :: vs)).leaves
      = (sequence us).leaves ++ ((sequence ts).leaves ++ leavesOfItems vs) :=
    leavesOfItems_append us _
  simp only [hleaves, List.mem_append] at hS
  have hpart : ((sequence us).extent.sequence (sequence ts).extent).states
      ≤ UInt32.size := by
    refine Nat.le_trans ?_ hfit
    show _ ≤ ((Extent.interpretation α).eval _).states
    rw [Interpretation.eval_sequence_append _ hus]
    exact states_le_evalRest (fun _ _ => Nat.le_refl _) vs _
  have hbefore : (sequence us).extent.states ≤ UInt32.size :=
    calc (sequence us).extent.states
        ≤ (sequence us).extent.fragmentSize := Extent.states_le_fragmentSize _
      _ ≤ ((sequence us).extent.sequence (sequence ts).extent).states :=
          Nat.le_add_right ..
      _ ≤ UInt32.size := hpart
  have hA : ((sequence us).automaton S).Realizes S _ _ :=
    automaton_realizes (fun a ha => hS a (Or.inl ha)) hbefore
  exact sequence_automaton hA hne (fun a ha => hS a (Or.inr (Or.inl ha))) hpart

end Automata

/-! ## Trees -/

/-- **One sequence in a sequence has given way to its items**, somewhere in a
tree. -/
inductive Unnests {α : Type} : Regex α → Regex α → Prop where
  | items {ts : List (Regex α)} (us vs : List (Regex α)) : ts ≠ [] →
      Unnests (sequence (us ++ sequence ts :: vs)) (sequence (us ++ ts ++ vs))
  | sequence {t u : Regex α} (us vs : List (Regex α)) : Unnests t u →
      Unnests (sequence (us ++ t :: vs)) (sequence (us ++ u :: vs))
  | choice {t u : Regex α} (us vs : List (Regex α)) : Unnests t u →
      Unnests (choice (us ++ t :: vs)) (choice (us ++ u :: vs))
  | star {t u : Regex α} : Unnests t u → Unnests (star t) (star u)
  | group {t u : Regex α} : Unnests t u → Unnests (group t) (group u)

theorem depthOfItems_append {α : Type} (ts us : List (Regex α)) :
    depthOfItems (ts ++ us) = max (depthOfItems ts) (depthOfItems us) := by
  induction ts with
  | nil => exact (Nat.zero_max _).symm
  | cons t ts ih => rw [List.cons_append, depthOfItems, ih, depthOfItems,
      Nat.max_assoc]

namespace Unnests

section Measures

variable {α : Type} {t u : Regex α}

theorem leaves_eq (h : t.Unnests u) : t.leaves = u.leaves := by
  induction h with
  | items us vs _ => simp [leaves, leavesOfItems_append, leavesOfItems]
  | sequence us vs _ ih | choice us vs _ ih =>
    simp [leaves, leavesOfItems_append, leavesOfItems, ih]
  | star _ ih | group _ ih => exact ih

/-- No node is deeper than before. -/
theorem depth_le (h : t.Unnests u) : u.depth ≤ t.depth := by
  induction h with
  | items us vs _ =>
    simp only [depth, depthOfItems_append, depthOfItems]
    omega
  | sequence us vs _ ih | choice us vs _ ih =>
    simp only [depth, depthOfItems_append, depthOfItems]
    omega
  | star _ ih | group _ ih => exact Nat.succ_le_succ ih

/-- **It takes the same number of states.** -/
theorem extent_eq (h : t.Unnests u) : t.extent = u.extent := by
  induction h with
  | items us vs hts =>
    exact Interpretation.eval_unnest _ hts (fun _ => sequence_extent _ hts) vs
  | sequence us vs _ ih | choice us vs _ ih =>
    exact Interpretation.evalItems_congr _ ih _ us vs
  | star _ ih => exact congrArg Extent.star ih
  | group _ ih => exact ih

end Measures

variable {α : Type} [LinearOrd α] {S : Alphabet α} {L : Limits} {A : NFA α}
  {t u : Regex α}

/-- **It has the same automaton**, if there are ids for it. -/
theorem automaton_eq (h : t.Unnests u) (hS : ∀ a ∈ t.leaves, a ∈ S)
    (hfit : t.extent.states ≤ UInt32.size) : t.automaton S = u.automaton S := by
  induction h with
  | items us vs hts => exact automaton_unnest hts us vs hS hfit
  | @sequence t u us vs _ ih =>
    have ht : t.leaves ⊆ leavesOfItems (us ++ t :: vs) :=
      leaves_subset_leavesOfItems (by simp)
    refine Interpretation.evalItems_congr _ (ih (fun a ha => hS a (ht ha)) ?_)
      true us vs
    exact Nat.le_trans (states_le_evalItems (fun _ _ => Nat.le_refl _) true
      us vs t) hfit
  | @choice t u us vs _ ih =>
    have ht : t.leaves ⊆ leavesOfItems (us ++ t :: vs) :=
      leaves_subset_leavesOfItems (by simp)
    refine Interpretation.evalItems_congr _ (ih (fun a ha => hS a (ht ha)) ?_)
      false us vs
    exact Nat.le_trans (states_le_evalItems (fun _ _ => Nat.le_add_right _ 2)
      false us vs t) hfit
  | star _ ih =>
    refine congrArg NFA.star (ih hS (Nat.le_trans ?_ hfit))
    exact Nat.le_trans (Extent.states_le_fragmentSize _) (Nat.le_add_right ..)
  | group _ ih => exact ih hS hfit

/-- **What is built of it is the same**, unless the nested tree is too deep. -/
theorem toNFA_eq_ok_iff (h : t.Unnests u) (hroom : L.Room t.extent.states) :
    t.toNFA S L = .ok A ↔ t.depth ≤ L.nesting ∧ u.toNFA S L = .ok A := by
  have hroom' : L.Room u.extent.states := h.extent_eq ▸ hroom
  have hleaves := h.leaves_eq
  cases hout : S.firstOutside t.leaves with
  | some a =>
    rw [toNFA_eq_outsideSymbol hout, toNFA_eq_outsideSymbol (hleaves ▸ hout)]
    exact ⟨nofun, fun h => absurd h.2 nofun⟩
  | none =>
    have hS := Alphabet.firstOutside_eq_none_iff.mp hout
    rw [(toNFA_outcome hS).eq_ok_iff_of_room hroom,
      (toNFA_outcome (hleaves ▸ hS)).eq_ok_iff_of_room hroom', ← h.extent_eq]
    -- under a limit that lets the automaton pass there are ids for it
    have hsame (hlimit : ∀ limit, L.states = some limit →
        t.extent.states ≤ limit) : t.automaton S = u.automaton S :=
      h.automaton_eq hS (hroom.le_size_of_le hlimit)
    constructor
    · rintro ⟨rfl, hdepth, hlimit⟩
      exact ⟨hdepth, hsame hlimit, Nat.le_trans h.depth_le hdepth, hlimit⟩
    · rintro ⟨hdepth, rfl, -, hlimit⟩
      exact ⟨(hsame hlimit).symm, hdepth, hlimit⟩

/-- **Both trees are built to one automaton**, as far as they are not too deep,
over symbols of the alphabet and within the limit on states. -/
theorem exists_toNFA_eq_ok (h : t.Unnests u) (hroom : L.Room t.extent.states)
    (hS : ∀ a ∈ t.leaves, a ∈ S)
    (hlimit : ∀ limit, L.states = some limit → t.extent.states ≤ limit) :
    ∃ A : NFA α, A.size = t.extent.states ∧
      (t.depth ≤ L.nesting → t.toNFA S L = .ok A) ∧
      (u.depth ≤ L.nesting → u.toNFA S L = .ok A) := by
  have hfit := hroom.le_size_of_le hlimit
  have heq := h.automaton_eq hS hfit
  refine ⟨t.automaton S, (automaton_realizes hS hfit).size_eq,
    fun hdepth => ?_, fun hdepth => ?_⟩
  · exact ((toNFA_outcome hS).eq_ok_iff_of_room hroom).mpr
      ⟨rfl, hdepth, hlimit⟩
  · rw [h.leaves_eq] at hS
    rw [h.extent_eq] at hroom hlimit
    exact ((toNFA_outcome hS).eq_ok_iff_of_room hroom).mpr
      ⟨heq, hdepth, hlimit⟩

end Unnests

end Regex

/-- **Sequences are associative, and nesting them makes no difference.** Three
automata in sequence, whatever their ids, alphabets and accepting states, are
one automaton whichever two are put together first, and neither way runs out of
ids as long as there are ids for all states. A tree in which a sequence has
given way to its items has the same automaton, if the tree before was not too
deep for the limits. Over an alphabet that has their symbols and under a limit
that is not below the number of their states both trees have one, unless they
are too deep. -/
theorem sequence_assoc_and_unnests_toNFA :
    (∀ (α : Type) [LinearOrd α] (A B C : NFA α),
      A.WellFormed → B.WellFormed → C.WellFormed →
      A.fragmentSize + B.fragmentSize + C.fragmentSize ≤ UInt32.size →
      (A.sequence B).sequence C = A.sequence (B.sequence C) ∧
      (NFA.Stepwise.sequence A B).bind (NFA.Stepwise.sequence · C)
        = .ok ((A.sequence B).sequence C) ∧
      (NFA.Stepwise.sequence B C).bind (NFA.Stepwise.sequence A)
        = .ok (A.sequence (B.sequence C))) ∧
    ∀ (α : Type) [LinearOrd α] (S : Alphabet α) (L : Limits) (t u : Regex α),
      t.Unnests u → L.Room t.extent.states →
      (∀ A, t.toNFA S L = .ok A ↔ t.depth ≤ L.nesting ∧ u.toNFA S L = .ok A) ∧
      ((∀ a ∈ t.leaves, a ∈ S) →
        (∀ limit, L.states = some limit → t.extent.states ≤ limit) →
        ∃ A : NFA α, A.size = t.extent.states ∧
          (t.depth ≤ L.nesting → t.toNFA S L = .ok A) ∧
          (u.depth ≤ L.nesting → u.toNFA S L = .ok A)) := by
  refine ⟨fun α _ A B C hA hB hC hfit => ⟨NFA.sequence_assoc hA hB hC hfit,
    ?_, ?_⟩, fun α _ S L t u h hroom => ⟨fun A => h.toNFA_eq_ok_iff hroom,
      fun hS hlimit => h.exists_toNFA_eq_ok hroom hS hlimit⟩⟩
  · have hAB : A.fragmentSize + B.fragmentSize ≤ UInt32.size := by omega
    rw [NFA.Stepwise.sequence_eq_ok hA hB hAB]
    refine NFA.Stepwise.sequence_eq_ok (NFA.wellFormed_sequence hA hB) hC ?_
    rwa [NFA.fragmentSize_sequence hA hB hAB]
  · have hBC : B.fragmentSize + C.fragmentSize ≤ UInt32.size := by omega
    rw [NFA.Stepwise.sequence_eq_ok hB hC hBC]
    refine NFA.Stepwise.sequence_eq_ok hA (NFA.wellFormed_sequence hB hC) ?_
    rwa [NFA.fragmentSize_sequence hB hC hBC, ← Nat.add_assoc]

/-- A letter, then a sequence of a letter and of any number of letters, and
then a letter again, any number of times. -/
def Regex.nestedSequence : Regex Char :=
  .star (.sequence [.literal 'a',
    .sequence [.literal 'b', .star (.literal 'a')], .literal 'b'])

/-- The same without the inner sequence. -/
def Regex.flatSequence : Regex Char :=
  .star (.sequence [.literal 'a', .literal 'b', .star (.literal 'a'),
    .literal 'b'])

theorem Regex.unnests_nestedSequence : nestedSequence.Unnests flatSequence :=
  .star (.items [.literal 'a'] [.literal 'b'] nofun)

/-- The automaton of either: two states for each letter and for each star. -/
def Regex.sequenceNFA : NFA Char where
  alphabet := Alphabet.ofString "ab"
  start := 10
  states := OrdSet.ofList [0, 1, 2, 3, 4, 5, 6, 7, 8, 9, 10, 11]
  final := OrdSet.ofList [11]
  edges := EdgeSet.ofList [⟨0, .symbol 'a', 1⟩, ⟨1, .silent, 2⟩,
    ⟨2, .symbol 'b', 3⟩, ⟨3, .silent, 6⟩, ⟨4, .symbol 'a', 5⟩,
    ⟨5, .silent, 4⟩, ⟨5, .silent, 7⟩, ⟨6, .silent, 4⟩, ⟨6, .silent, 7⟩,
    ⟨7, .silent, 8⟩, ⟨8, .symbol 'b', 9⟩, ⟨9, .silent, 0⟩, ⟨9, .silent, 11⟩,
    ⟨10, .silent, 0⟩, ⟨10, .silent, 11⟩]

/-- Automata of two accepting states and of one, with ids in common, and a tree
whose inner sequence is too deep for three levels and gives way in four. -/
theorem sequence_assoc_and_unnests_toNFA_alternating :
    NFA.alternating.WellFormed ∧ NFA.separated.WellFormed ∧
      NFA.alternating.fragmentSize + NFA.separated.fragmentSize
        + NFA.alternating.fragmentSize ≤ UInt32.size ∧
      (NFA.alternating.sequence NFA.separated).sequence NFA.alternating
        = NFA.alternating.sequence
          (NFA.separated.sequence NFA.alternating) ∧
      Regex.nestedSequence.Unnests Regex.flatSequence ∧
      Regex.nestedSequence.toNFA (Alphabet.ofString "ab") ⟨some 12, 4⟩
        = .ok Regex.sequenceNFA ∧
      Regex.flatSequence.toNFA (Alphabet.ofString "ab") ⟨some 12, 4⟩
        = .ok Regex.sequenceNFA ∧
      ∀ A, Regex.nestedSequence.toNFA (Alphabet.ofString "ab") ⟨none, 3⟩
        ≠ .ok A := by
  have hfit : NFA.alternating.fragmentSize + NFA.separated.fragmentSize
      + NFA.alternating.fragmentSize ≤ UInt32.size := by decide
  have hroom : ∀ L : Limits, L.Room Regex.nestedSequence.extent.states :=
    fun _ => Or.inl (by decide)
  have hdepth : Regex.nestedSequence.depth = 4 := rfl
  have hS : ∀ a ∈ Regex.nestedSequence.leaves, a ∈ Alphabet.ofString "ab" :=
    Alphabet.firstOutside_eq_none_iff.mp rfl
  have hlimit : ∀ limit, some 12 = some limit →
      Regex.nestedSequence.extent.states ≤ limit := by
    rintro _ ⟨⟩
    decide
  obtain ⟨hassoc, hunnests⟩ := sequence_assoc_and_unnests_toNFA
  have htree := fun L => hunnests Char (Alphabet.ofString "ab") L _ _
    Regex.unnests_nestedSequence (hroom L)
  obtain ⟨A, -, hnested, hflat⟩ := (htree ⟨some 12, 4⟩).2 hS hlimit
  have hA : Regex.flatSequence.toNFA (Alphabet.ofString "ab") ⟨some 12, 4⟩
      = .ok Regex.sequenceNFA := by decide +kernel
  obtain rfl : A = Regex.sequenceNFA :=
    Except.ok.inj ((hflat (by decide)).symm.trans hA)
  refine ⟨NFA.wellFormed_alternating, NFA.wellFormed_separated, hfit,
    (hassoc Char _ _ _ NFA.wellFormed_alternating NFA.wellFormed_separated
      NFA.wellFormed_alternating hfit).1, Regex.unnests_nestedSequence,
    hnested (Nat.le_refl 4), hA, fun A h => ?_⟩
  rw [(htree ⟨none, 3⟩).1, hdepth] at h
  exact absurd h.1 (by decide)

end Recognizer
