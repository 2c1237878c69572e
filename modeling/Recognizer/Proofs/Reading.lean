import Recognizer.Proofs.Answers
import Recognizer.Proofs.Construction
import Recognizer.Proofs.Nesting
import Recognizer.Proofs.Pattern

/-!
# Printing a tree and reading it again

A tree built by hand is rarely canonical, and then its pattern is read as
another tree. Which one is told by `reading`, node by node: a sequence takes
over the factors of its items and a choice their alternatives, a single item
is left without its node, and a choice in a sequence and the operand of a star
come with a group around them where the printer writes parentheses. The result
is canonical and prints to the same pattern (`canonical_reading`,
`render_reading`), and there is one canonical tree for a pattern at most.

Nothing of the meaning is lost on the way. The language is a product over
factors and a sum over alternatives, and neither cares how these are grouped.
The literals and the extent of the automaton are told by the text alone. What
can be lost is the tree itself: groups make it higher, though no more than
twice as high, and a limit may then cut the pattern off.
-/

open scoped Computability

namespace Recognizer

namespace Regex

/-- The tree, in a group unless it may stand bare. -/
def groupUnless (bare : Bool) (t : Regex Char) : Regex Char :=
  if bare then t else group t

mutual

/-- **The tree that the pattern of a tree is read as.** -/
def reading : Regex Char → Regex Char
  | literal a => literal a
  | sequence ts => join .sequence (readingFactors ts)
  | choice ts => join .choice (readingAlternatives ts)
  | star t => star (groupUnless t.isAtom t.reading)
  | group t => group t.reading

/-- The factors that the items of a sequence come to. -/
def readingFactors : List (Regex Char) → List (Regex Char)
  | [] => []
  | t :: ts => (groupUnless (!t.isChoice) t.reading).factors ++ readingFactors ts

/-- The alternatives that the items of a choice come to. -/
def readingAlternatives : List (Regex Char) → List (Regex Char)
  | [] => []
  | t :: ts => t.reading.alternatives ++ readingAlternatives ts

end

variable {t u : Regex Char} {ts : List (Regex Char)}

theorem readingFactors_eq_flatMap (ts : List (Regex Char)) :
    readingFactors ts
      = ts.flatMap fun t => (groupUnless (!t.isChoice) t.reading).factors := by
  induction ts with
  | nil => rfl
  | cons t ts ih => rw [readingFactors, ih, List.flatMap_cons]

theorem readingAlternatives_eq_flatMap (ts : List (Regex Char)) :
    readingAlternatives ts = ts.flatMap fun t => t.reading.alternatives := by
  induction ts with
  | nil => rfl
  | cons t ts ih => rw [readingAlternatives, ih, List.flatMap_cons]

theorem mem_readingFactors_iff :
    u ∈ readingFactors ts ↔
      ∃ t ∈ ts, u ∈ (groupUnless (!t.isChoice) t.reading).factors := by
  rw [readingFactors_eq_flatMap, List.mem_flatMap]

theorem mem_readingAlternatives_iff :
    u ∈ readingAlternatives ts ↔ ∃ t ∈ ts, u ∈ t.reading.alternatives := by
  rw [readingAlternatives_eq_flatMap, List.mem_flatMap]

/-! ## What is read is canonical -/

theorem Canonical.groupUnless (bare : Bool) (ht : t.Canonical) :
    (t.groupUnless bare).Canonical := by
  cases bare with
  | true => exact ht
  | false => exact .group ht

theorem isAtom_groupUnless {bare : Bool} (h : bare = true → t.isAtom = true) :
    (t.groupUnless bare).isAtom = true := by
  cases bare with
  | true => exact h rfl
  | false => rfl

theorem isChoice_groupUnless {bare : Bool}
    (h : bare = true → t.isChoice = false) :
    (t.groupUnless bare).isChoice = false := by
  cases bare with
  | true => exact h rfl
  | false => rfl

theorem isAtom_reading (h : t.isAtom = true) : t.reading.isAtom = true := by
  cases t <;> simp_all [isAtom, reading]

/-- No choice is left bare among the items of a sequence. -/
theorem isChoice_groupUnless_reading
    (h : t.isChoice = false → t.reading.isChoice = false) :
    (groupUnless (!t.isChoice) t.reading).isChoice = false :=
  isChoice_groupUnless fun hbare => h (by simpa using hbare)

/-- What the items of a sequence come to may stand in a sequence. -/
theorem of_mem_readingFactors
    (hts : ∀ t ∈ ts, t.reading.Canonical ∧
      (t.isChoice = false → t.reading.isChoice = false)) :
    ∀ u ∈ readingFactors ts, u.Canonical ∧ u.isFactor = true := by
  intro u hu
  obtain ⟨t, ht, hu⟩ := mem_readingFactors_iff.mp hu
  obtain ⟨hcan, hchoice⟩ := hts t ht
  obtain ⟨hu, hfactor, -⟩ := (hcan.groupUnless (!t.isChoice)).of_mem_factors
    (isChoice_groupUnless_reading hchoice) hu
  exact ⟨hu, hfactor⟩

/-- What the items of a choice come to may stand in a choice. -/
theorem of_mem_readingAlternatives (hts : ∀ t ∈ ts, t.reading.Canonical) :
    ∀ u ∈ readingAlternatives ts, u.Canonical ∧ u.isChoice = false := by
  intro u hu
  obtain ⟨t, ht, hu⟩ := mem_readingAlternatives_iff.mp hu
  obtain ⟨hu, hchoice, -⟩ := (hts t ht).of_mem_alternatives hu
  exact ⟨hu, hchoice⟩

/-- Items that come to something each come to something together. -/
theorem flatMap_ne_nil {f : Regex Char → List (Regex Char)} (hne : ts ≠ [])
    (hf : ∀ t ∈ ts, f t ≠ []) : ts.flatMap f ≠ [] := by
  obtain ⟨t, ht⟩ := List.exists_mem_of_ne_nil ts hne
  intro h
  exact hf t ht (List.flatMap_eq_nil_iff.mp h t ht)

theorem readingFactors_ne_nil (hne : ts ≠ [])
    (hts : ∀ t ∈ ts, t.reading.Canonical) : readingFactors ts ≠ [] := by
  rw [readingFactors_eq_flatMap]
  exact flatMap_ne_nil hne fun t ht => ((hts t ht).groupUnless _).factors_ne_nil

theorem readingAlternatives_ne_nil (hne : ts ≠ [])
    (hts : ∀ t ∈ ts, t.reading.Canonical) : readingAlternatives ts ≠ [] := by
  rw [readingAlternatives_eq_flatMap]
  exact flatMap_ne_nil hne fun t ht => (hts t ht).alternatives_ne_nil

/-- **What is read is canonical**, and a choice only where a choice was
printed. -/
theorem canonical_reading (ht : t.Expressible) :
    t.reading.Canonical ∧ (t.isChoice = false → t.reading.isChoice = false) := by
  induction ht with
  | literal hc => exact ⟨.literal hc, fun _ => rfl⟩
  | sequence hne _ ih =>
    have hmem := of_mem_readingFactors ih
    refine ⟨?_, fun _ => isChoice_join_sequence fun u hu => (hmem u hu).2⟩
    exact canonical_join_sequence
      (readingFactors_ne_nil hne fun t ht => (ih t ht).1) hmem
  | choice hne _ ih =>
    have hcan := fun t ht => (ih t ht).1
    refine ⟨?_, fun h => absurd h nofun⟩
    exact canonical_join_choice (readingAlternatives_ne_nil hne hcan)
      (of_mem_readingAlternatives hcan)
  | star _ ih =>
    exact ⟨.star (isAtom_groupUnless isAtom_reading) (ih.1.groupUnless _),
      fun _ => rfl⟩
  | group _ ih => exact ⟨.group ih.1, fun _ => rfl⟩

/-! ## What is read prints alike -/

theorem render_groupUnless (bare : Bool) (t : Regex Char) :
    (t.groupUnless bare).render
      = if bare then t.render else parenthesize t.render := by
  cases bare <;> rfl

/-- Alternatives print with bars between them: one more before the first, and
each has its own. -/
theorem cons_render_join_choice (hne : ts ≠ []) :
    '|' :: (join .choice ts).render = ts.flatMap fun t => ['|'] ++ t.render := by
  rw [← renderAlternatives_eq_flatMap]
  match ts with
  | [t] => exact congrArg _ (List.append_nil _).symm
  | t :: u :: us => rfl

/-- The factors of an item print as the item does in a sequence. -/
theorem flatMap_render_factors (ht : t.Expressible)
    (hrender : t.reading.render = t.render) :
    (groupUnless (!t.isChoice) t.reading).factors.flatMap render
      = if t.isChoice then parenthesize t.render else t.render := by
  obtain ⟨hread, hchoice⟩ := canonical_reading ht
  rw [← (hread.groupUnless _).render_eq_flatMap_factors
    (isChoice_groupUnless_reading hchoice), render_groupUnless, hrender]
  cases t.isChoice <;> rfl

/-- The alternatives of an item print as the item does in a choice. -/
theorem flatMap_render_alternatives (ht : t.Expressible)
    (hrender : t.reading.render = t.render) :
    (t.reading.alternatives.flatMap fun u => ['|'] ++ u.render)
      = ['|'] ++ t.render := by
  obtain ⟨hread, -⟩ := canonical_reading ht
  rw [← cons_render_join_choice hread.alternatives_ne_nil,
    hread.join_alternatives, hrender]
  rfl

/-- **What is read prints to the same text.** -/
theorem render_reading (ht : t.Expressible) : t.reading.render = t.render := by
  induction ht with
  | literal hc => rfl
  | @sequence ts _ hts ih =>
    have hfactor := of_mem_readingFactors fun t ht =>
      canonical_reading (hts t ht)
    have hitem := fun t ht => flatMap_render_factors (hts t ht) (ih t ht)
    rw [reading, render_join_sequence fun u hu => (hfactor u hu).2,
      readingFactors_eq_flatMap, List.flatMap_assoc, List.flatMap_congr hitem,
      render, renderFactors_eq_flatMap_ite]
  | @choice ts hne hts ih =>
    have hread := readingAlternatives_ne_nil hne fun t ht =>
      (canonical_reading (hts t ht)).1
    have hitem := fun t ht => flatMap_render_alternatives (hts t ht) (ih t ht)
    have hbar : '|' :: (choice ts).reading.render
        = '|' :: (choice ts).render := by
      rw [reading, cons_render_join_choice hread,
        readingAlternatives_eq_flatMap, List.flatMap_assoc,
        List.flatMap_congr hitem, ← renderAlternatives_eq_flatMap]
      cases ts with
      | nil => exact absurd rfl hne
      | cons t ts => rfl
    exact List.tail_eq_of_cons_eq hbar
  | star _ ih =>
    rw [reading, render, if_pos (isAtom_groupUnless isAtom_reading),
      render_groupUnless, ih, render]
  | group _ ih => rw [reading, render, ih, render]

/-! ## What is read means the same -/

theorem language_groupUnless (bare : Bool) (t : Regex Char) :
    (t.groupUnless bare).language = t.language := by
  cases bare <;> rfl

theorem language_join_sequence (ts : List (Regex Char)) :
    (join .sequence ts).language = (ts.map language).prod := by
  obtain ⟨t, rfl, hjoin⟩ | ⟨-, hjoin⟩ := join_cases .sequence ts
  · exact (mul_one _).symm
  · rw [hjoin, language_sequence]

theorem language_join_choice (ts : List (Regex Char)) :
    (join .choice ts).language = (ts.map language).sum := by
  obtain ⟨t, rfl, hjoin⟩ | ⟨-, hjoin⟩ := join_cases .choice ts
  · exact (add_zero _).symm
  · rw [hjoin, language_choice]

theorem prod_factors (t : Regex Char) :
    (t.factors.map language).prod = t.language := by
  cases t with
  | sequence ts => exact (language_sequence ts).symm
  | _ => exact mul_one _

theorem sum_alternatives (t : Regex Char) :
    (t.alternatives.map language).sum = t.language := by
  cases t with
  | choice ts => exact (language_choice ts).symm
  | _ => exact add_zero _

/-- **What is read has the same language.** -/
theorem language_reading (t : Regex Char) :
    t.reading.language = t.language := by
  induction t using Regex.induction with
  | literal a => rfl
  | sequence ts ih =>
    rw [reading, language_join_sequence, language_sequence]
    induction ts with
    | nil => rfl
    | cons t ts ihs =>
      rw [readingFactors, List.map_append, List.prod_append, prod_factors,
        language_groupUnless, ih t List.mem_cons_self,
        ihs fun u hu => ih u (List.mem_cons_of_mem _ hu), List.map_cons,
        List.prod_cons]
  | choice ts ih =>
    rw [reading, language_join_choice, language_choice]
    induction ts with
    | nil => rfl
    | cons t ts ihs =>
      rw [readingAlternatives, List.map_append, List.sum_append,
        sum_alternatives, ih t List.mem_cons_self,
        ihs fun u hu => ih u (List.mem_cons_of_mem _ hu), List.map_cons,
        List.sum_cons]
  | star t ih =>
    rw [reading, language_star, language_groupUnless, ih, language_star]
  | group t ih => rw [reading, language_group, ih, language_group]

/-! ## What is read is no more than twice as high -/

theorem height_groupUnless_le (bare : Bool) (t : Regex Char) :
    (t.groupUnless bare).height ≤ t.height + 1 := by
  cases bare with
  | true => exact Nat.le_succ _
  | false => exact Nat.le_refl _

theorem heightOfItems_le {n : Nat} (h : ∀ t ∈ ts, t.height ≤ n) :
    heightOfItems ts ≤ n := by
  induction ts with
  | nil => exact Nat.zero_le _
  | cons t ts ih =>
    exact Nat.max_le.mpr ⟨h t List.mem_cons_self,
      ih fun u hu => h u (List.mem_cons_of_mem _ hu)⟩

/-- Joined items are one level below a node at most. -/
theorem height_join_le {node : List (Regex Char) → Regex Char}
    (hnode : (node ts).height = heightOfItems ts + 1) {n : Nat}
    (h : ∀ t ∈ ts, t.height ≤ n) : (join node ts).height ≤ n + 1 := by
  obtain ⟨t, rfl, hjoin⟩ | ⟨-, hjoin⟩ := join_cases node ts
  · rw [hjoin]
    exact Nat.le_succ_of_le (h t List.mem_cons_self)
  · rw [hjoin, hnode]
    exact Nat.succ_le_succ (heightOfItems_le h)

/-- **What is read is no more than twice as high**: a level gets one group at
most. -/
theorem height_reading_le (t : Regex Char) : t.reading.height ≤ 2 * t.height := by
  induction t using Regex.induction with
  | literal a => exact Nat.le_refl _
  | sequence ts ih =>
    refine height_join_le (n := 2 * heightOfItems ts + 1) rfl fun u hu => ?_
    obtain ⟨t, ht, hu⟩ := mem_readingFactors_iff.mp hu
    have := height_le_of_mem_factors hu
    have := height_groupUnless_le (!t.isChoice) t.reading
    have := ih t ht
    have := height_le_heightOfItems ht
    omega
  | choice ts ih =>
    have hbound : ∀ u ∈ readingAlternatives ts,
        u.height ≤ 2 * heightOfItems ts := by
      intro u hu
      obtain ⟨t, ht, hu⟩ := mem_readingAlternatives_iff.mp hu
      have := height_le_of_mem_alternatives hu
      have := ih t ht
      have := height_le_heightOfItems ht
      omega
    exact Nat.le_succ_of_le (height_join_le rfl hbound)
  | star t ih =>
    have := height_groupUnless_le t.isAtom t.reading
    rw [reading, height, height]
    omega
  | group t ih =>
    rw [reading, height, height]
    omega

/-! ## Reading what was printed -/

/-- **One canonical tree at most prints to a pattern.** -/
theorem Canonical.eq_of_toPattern_eq (ht : t.Canonical) (hu : u.Canonical)
    (h : t.toPattern = u.toPattern) : t = u := by
  have ht' := ofPattern_toPattern ht (Nat.le_max_left t.height u.height)
  have hu' := ofPattern_toPattern hu (Nat.le_max_right t.height u.height)
  rw [h, hu'] at ht'
  exact (Except.ok.inj ht').symm

theorem toPattern_reading (ht : t.Expressible) :
    t.reading.toPattern = t.toPattern := by
  rw [toPattern, toPattern, render_reading ht]

/-- **The pattern of a tree is read as its reading**, if it is read. -/
theorem eq_reading_of_ofPattern {limit : Nat} (ht : t.Expressible)
    (h : ofPattern limit t.toPattern = .ok u) : u = t.reading := by
  obtain ⟨hu, -, hpattern⟩ := canonical_of_ofPattern h
  refine hu.eq_of_toPattern_eq (canonical_reading ht).1 ?_
  rw [hpattern, toPattern_reading ht]

/-- **The pattern of a tree is read** under a limit twice as high as the
tree. -/
theorem ofPattern_toPattern_eq_reading {limit : Nat} (ht : t.Expressible)
    (hlimit : 2 * t.height ≤ limit) :
    ofPattern limit t.toPattern = .ok t.reading := by
  rw [← toPattern_reading ht]
  exact ofPattern_toPattern (canonical_reading ht).1
    (Nat.le_trans t.height_reading_le hlimit)

/-- **The pattern of a tree is refused for its nesting only.** Under a limit
that is high enough it is read, and a lower one only cuts off. -/
theorem kind_eq_of_ofPattern_toPattern {limit : Nat} {f : PatternFault}
    (ht : t.Expressible) (h : ofPattern limit t.toPattern = .error f) :
    f.kind = .nestedTooDeep := by
  have hread := ofPattern_toPattern_eq_reading ht
    (Nat.le_max_right limit (2 * t.height))
  rcases ofPattern_cutsOff (Nat.le_max_left limit (2 * t.height)) t.toPattern
    with hsame | ⟨p, hp, -⟩
  · rw [h, hread] at hsame
    exact absurd hsame nofun
  · rw [h] at hp
    rw [Except.error.inj hp]

/-- **Printing a tree and reading it again keeps what it means.** The pattern
of a tree can only be refused for its nesting, and not even for that under a
limit of twice the height of the tree. What is read has the literals of the
tree in their order, matches the same words, and takes as many states; and
where there are ids for so many, the two are built over every alphabet that
has the literals, are of the same size, and run alike on every word. -/
theorem ofPattern_toPattern_of_expressible {t : Regex Char}
    (ht : t.Expressible) (limit : Nat) :
    (2 * t.height ≤ limit → ∃ u, ofPattern limit t.toPattern = .ok u) ∧
    (∀ f, ofPattern limit t.toPattern = .error f → f.kind = .nestedTooDeep) ∧
    ∀ u, ofPattern limit t.toPattern = .ok u →
      u.leaves = t.leaves ∧ (∀ w, u.Matches w ↔ t.Matches w) ∧
      u.extent = t.extent ∧
      ∀ (S : Alphabet Char) (L M : Limits), (∀ c ∈ t.leaves, c ∈ S) →
        L.states = none → t.depth ≤ L.nesting →
        M.states = none → u.depth ≤ M.nesting →
        t.extent.states ≤ UInt32.size →
        ∃ A B, t.toNFA S L = .ok A ∧ u.toNFA S M = .ok B ∧
          B.size = A.size ∧ ∀ w, B.run w = A.run w := by
  refine ⟨fun h => ⟨_, ofPattern_toPattern_eq_reading ht h⟩,
    fun f hf => kind_eq_of_ofPattern_toPattern ht hf, fun u hu => ?_⟩
  have hlang : u.language = t.language := by
    rw [eq_reading_of_ofPattern ht hu, language_reading]
  have hleaves : u.leaves = t.leaves := by
    rw [leaves_eq_filter hu, toPattern, String.toList_ofList, ht.filter_render]
  have hextent : u.extent = t.extent := by
    rw [extent_eq_weight hu, toPattern, String.toList_ofList, ht.extent_eq]
  have hmatches : ∀ w, u.Matches w ↔ t.Matches w := fun w => by
    rw [← mem_language, hlang, mem_language]
  refine ⟨hleaves, hmatches, hextent,
    fun S L M hS hL hLdepth hM hMdepth hfit => ?_⟩
  obtain ⟨A, hA, hrealA⟩ := exists_toNFA_realizes hS hL hLdepth hfit
  obtain ⟨B, hB, hrealB⟩ := exists_toNFA_realizes (hleaves.symm ▸ hS) hM hMdepth
    (hextent.symm ▸ hfit)
  refine ⟨A, B, hA, hB, ?_, NFA.run_eq_of_accepts_iff hrealB.wellFormed
    hrealA.wellFormed ?_ fun w => ?_⟩
  · rw [hrealB.size_eq, hextent, hrealA.size_eq]
  · rw [hrealB.alphabet_eq, hrealA.alphabet_eq]
  · rw [← NFA.mem_language, hrealB.language_eq, hlang, ← hrealA.language_eq,
      NFA.mem_language]

/-- A tree that no pattern spells: single items under nodes of their own,
choices among choices, a sequence in a sequence and under a star. -/
def nestedLetters : Regex Char :=
  .star (.sequence [.choice [.literal 'a'],
    .sequence [.literal 'b', .choice [.literal 'c', .choice [.literal 'd']]]])

/-- The pattern of the tree is read as another tree, with more groups and
fewer nodes. -/
theorem ofPattern_toPattern_nestedLetters :
    nestedLetters.Expressible ∧ nestedLetters.toPattern = "((a)b(c|d))*" ∧
      2 * nestedLetters.height ≤ ({} : Limits).nesting ∧
      (∀ c ∈ nestedLetters.leaves, c ∈ Alphabet.ofString "abcd") ∧
      nestedLetters.depth ≤ ({} : Limits).nesting ∧
      nestedLetters.extent.states ≤ UInt32.size ∧
      ∃ u, ofPattern ({} : Limits).nesting nestedLetters.toPattern = .ok u ∧
        u = .star (.group (.sequence [.group (.literal 'a'), .literal 'b',
          .group (.choice [.literal 'c', .literal 'd'])])) ∧
        u.leaves = nestedLetters.leaves ∧
        ∃ A B, nestedLetters.toNFA (Alphabet.ofString "abcd") {} = .ok A ∧
          u.toNFA (Alphabet.ofString "abcd") {} = .ok B ∧ B.size = A.size ∧
          ∀ w, B.run w = A.run w := by
  have hexp : nestedLetters.Expressible := by
    have ha : (choice [literal 'a']).Expressible :=
      .choice nofun (List.forall_iff_forall_mem.mp (.literal rfl))
    have hd : (choice [literal 'd']).Expressible :=
      .choice nofun (List.forall_iff_forall_mem.mp (.literal rfl))
    have hcd : (choice [literal 'c', choice [literal 'd']]).Expressible :=
      .choice nofun (List.forall_iff_forall_mem.mp ⟨.literal rfl, hd⟩)
    have hbcd : (sequence [literal 'b',
        choice [literal 'c', choice [literal 'd']]]).Expressible :=
      .sequence nofun (List.forall_iff_forall_mem.mp ⟨.literal rfl, hcd⟩)
    exact .star (.sequence nofun (List.forall_iff_forall_mem.mp ⟨ha, hbcd⟩))
  have hheight : 2 * nestedLetters.height ≤ ({} : Limits).nesting := by decide
  have hS : ∀ c ∈ nestedLetters.leaves, c ∈ Alphabet.ofString "abcd" :=
    Alphabet.firstOutside_eq_none_iff.mp rfl
  have hdepth : nestedLetters.depth ≤ ({} : Limits).nesting := by decide
  have hfit : nestedLetters.extent.states ≤ UInt32.size := by decide
  obtain ⟨hread, -, hmeaning⟩ :=
    ofPattern_toPattern_of_expressible hexp ({} : Limits).nesting
  obtain ⟨u, hu⟩ := hread hheight
  obtain ⟨hleaves, -, -, hbuild⟩ := hmeaning u hu
  exact ⟨hexp, rfl, hheight, hS, hdepth, hfit, u, hu, (Except.ok.inj hu).symm,
    hleaves, hbuild _ {} {} hS rfl hdepth rfl (depth_le_of_ofPattern hu) hfit⟩

end Regex

end Recognizer
