import Recognizer.Proofs.Limits
import Recognizer.Proofs.RoundTrip

/-!
# What comes of building a pattern

A caller holds a pattern and not a tree, and wants to know beforehand what
building it comes to. The pattern tells, for the tree that is read from it
prints back to it, and of a tree that prints to a pattern the text shows
everything the construction asks for: the literals are the characters that are
no signs, in the same order (`Expressible.filter_render`), and every character
but a parenthesis stands for two states (`Expressible.extent_eq`) – a literal
for those of its automaton, a star and a bar for a start and an end of their
own. A sequence has no sign of its own and adds no states, and neither do
parentheses, whether the tree holds them or the printer adds them.

Nothing that can be read is too deep to be built, since reading looks at the
same limit and heights are not less than depths.
-/

namespace Recognizer

namespace Regex

/-- Whether a character opens or closes a group. -/
def isParenthesis (c : Char) : Bool := c = '(' || c = ')'

/-- What is no sign is no parenthesis. -/
theorem isParenthesis_of_not_isSign {c : Char} (h : isSign c = false) :
    isParenthesis c = false := by
  simp only [isSign, Bool.or_eq_false_iff] at h
  rw [isParenthesis, h.1.2, h.2]
  rfl

/-- **How many characters of a text are no parentheses.** -/
def weight (cs : List Char) : Nat := cs.countP fun c => !isParenthesis c

@[simp] theorem weight_append (cs ds : List Char) :
    weight (cs ++ ds) = weight cs + weight ds := List.countP_append

/-- The items of a sequence print one after the other, a choice in
parentheses. -/
theorem renderFactors_eq_flatMap_ite (ts : List (Regex Char)) :
    renderFactors ts = ts.flatMap fun t =>
      if t.isChoice then parenthesize t.render else t.render := by
  induction ts with
  | nil => rfl
  | cons t ts ih => rw [renderFactors, ih, List.flatMap_cons]

/-- A bar before each alternative but the first. -/
theorem renderAlternatives_eq_flatMap {α : Type} [SymbolText α]
    (ts : List (Regex α)) :
    renderAlternatives ts = ts.flatMap fun t => ['|'] ++ t.render := by
  induction ts with
  | nil => rfl
  | cons t ts ih => rw [renderAlternatives, ih, List.flatMap_cons]; rfl

section Parentheses

variable {p : Char → Bool} (hopen : p '(' = false) (hclose : p ')' = false)

include hopen hclose

/-- Parentheses disappear when they are filtered away. -/
theorem filter_parenthesize (cs : List Char) :
    (parenthesize cs).filter p = cs.filter p := by
  rw [parenthesize, List.filter_cons_of_neg (by simp [hopen]),
    List.filter_append, List.filter_cons_of_neg (by simp [hclose])]
  exact List.append_nil _

/-- So do those around the choices in a sequence. -/
theorem filter_renderFactors (ts : List (Regex Char)) :
    (renderFactors ts).filter p = (ts.flatMap render).filter p := by
  rw [renderFactors_eq_flatMap_ite, List.filter_flatMap, List.filter_flatMap]
  refine List.flatMap_congr fun t _ => ?_
  split
  · exact filter_parenthesize hopen hclose t.render
  · rfl

end Parentheses

/-- Texts that differ in parentheses only weigh the same. -/
theorem weight_eq_of_filter_eq {cs ds : List Char}
    (h : cs.filter (fun c => !isParenthesis c)
      = ds.filter fun c => !isParenthesis c) : weight cs = weight ds := by
  rw [weight, weight, List.countP_eq_length_filter, h,
    List.countP_eq_length_filter]

@[simp] theorem weight_parenthesize (cs : List Char) :
    weight (parenthesize cs) = weight cs :=
  weight_eq_of_filter_eq (filter_parenthesize rfl rfl cs)

theorem weight_renderFactors (ts : List (Regex Char)) :
    weight (renderFactors ts) = weight (ts.flatMap render) :=
  weight_eq_of_filter_eq (filter_renderFactors rfl rfl ts)

/-- **The literals of a tree are the characters of its text** that are no
signs, in the same order. -/
theorem Expressible.filter_render {t : Regex Char} (ht : t.Expressible) :
    t.render.filter (fun c => !isSign c) = t.leaves := by
  induction ht with
  | literal hc => exact List.filter_cons_of_pos (by rw [hc]; rfl)
  | sequence _ _ ih =>
    rw [render, filter_renderFactors rfl rfl, leaves,
      leavesOfItems_eq_flatMap, List.filter_flatMap]
    exact List.flatMap_congr ih
  | @choice ts _ _ ih =>
    cases ts with
    | nil => rfl
    | cons t ts =>
      rw [render, renderAlternatives_eq_flatMap, leaves, leavesOfItems,
        leavesOfItems_eq_flatMap, List.filter_append, List.filter_flatMap,
        ih t List.mem_cons_self]
      refine congrArg (t.leaves ++ ·) (List.flatMap_congr fun u hu => ?_)
      rw [List.filter_append]
      exact ih u (List.mem_cons_of_mem _ hu)
  | @star t _ ih =>
    have hoperand : (if t.isAtom then t.render else parenthesize t.render).filter
        (fun c => !isSign c) = t.leaves := by
      split
      · exact ih
      · exact (filter_parenthesize rfl rfl _).trans ih
    rw [render, leaves, List.filter_append, hoperand]
    exact List.append_nil _
  | group _ ih =>
    rw [render, leaves, filter_parenthesize rfl rfl, ih]

theorem extent_sequence (m n : Nat) : Extent.sequence ⟨2 * m, 1⟩ ⟨2 * n, 1⟩
    = ⟨2 * (m + (weight [] + n)), 1⟩ := by
  show (⟨2 * m + 2 * n, 1⟩ : Extent) = ⟨2 * (m + (0 + n)), 1⟩
  rw [Nat.zero_add, Nat.mul_add]

theorem extent_choice (m n : Nat) : Extent.choice ⟨2 * m, 1⟩ ⟨2 * n, 1⟩
    = ⟨2 * (m + (weight ['|'] + n)), 1⟩ := by
  show (⟨2 * m + 2 * n + 2, 1⟩ : Extent) = ⟨2 * (m + (1 + n)), 1⟩
  rw [Nat.add_comm 1 n, Nat.mul_add, Nat.mul_succ, Nat.add_assoc]

/-- **Items add up**, those before which a text stands with the weight of
that text. -/
theorem evalRest_extent {measure : Extent → Extent → Extent} {sep : List Char}
    (hmeasure : ∀ m n, measure ⟨2 * m, 1⟩ ⟨2 * n, 1⟩
      = ⟨2 * (m + (weight sep + n)), 1⟩)
    {ts : List (Regex Char)}
    (hts : ∀ t ∈ ts, t.extent = ⟨2 * weight t.render, 1⟩) (m : Nat) :
    (Extent.interpretation Char).evalRest measure ts ⟨2 * m, 1⟩
      = ⟨2 * (m + weight (ts.flatMap fun t => sep ++ t.render)), 1⟩ := by
  induction ts generalizing m with
  | nil => rfl
  | cons t ts ih =>
    have ht : (Extent.interpretation Char).eval t = ⟨2 * weight t.render, 1⟩ :=
      hts t List.mem_cons_self
    rw [Interpretation.evalRest, ht, hmeasure,
      ih (fun u hu => hts u (List.mem_cons_of_mem _ hu)), List.flatMap_cons,
      weight_append, weight_append, Nat.add_assoc]

/-- **The automaton of a tree takes two states a character** of its text,
parentheses apart, and has one accepting state. -/
theorem Expressible.extent_eq {t : Regex Char} (ht : t.Expressible) :
    t.extent = ⟨2 * weight t.render, 1⟩ := by
  induction ht with
  | @literal c hc =>
    rw [render, show weight (SymbolText.plain c) = 1 from
      List.countP_cons_of_pos (by rw [isParenthesis_of_not_isSign hc]; rfl)]
    rfl
  | @sequence ts hne _ ih =>
    cases ts with
    | nil => exact absurd rfl hne
    | cons t ts =>
      have h := evalRest_extent extent_sequence
        (fun u hu => ih u (List.mem_cons_of_mem _ hu)) (weight t.render)
      rw [← ih t List.mem_cons_self, ← weight_append] at h
      rw [render, weight_renderFactors]
      exact h
  | @choice ts hne _ ih =>
    cases ts with
    | nil => exact absurd rfl hne
    | cons t ts =>
      have h := evalRest_extent extent_choice
        (fun u hu => ih u (List.mem_cons_of_mem _ hu)) (weight t.render)
      rw [← ih t List.mem_cons_self, ← weight_append] at h
      rw [render, renderAlternatives_eq_flatMap]
      exact h
  | @star t _ ih =>
    have hoperand : weight (if t.isAtom then t.render else parenthesize t.render)
        = weight t.render := by
      split
      · rfl
      · exact weight_parenthesize _
    have hstar : t.star.extent = t.extent.star := rfl
    rw [hstar, ih, render, weight_append, hoperand]
    rfl
  | @group t _ ih =>
    rw [render, weight_parenthesize]
    exact ih

section Read

variable {limit : Nat} {pattern : String} {t : Regex Char}

/-- The literals of what was read are the characters that are no signs. -/
theorem leaves_eq_filter (ht : ofPattern limit pattern = .ok t) :
    t.leaves = pattern.toList.filter (fun c => !isSign c) := by
  obtain ⟨hcan, -, rfl⟩ := canonical_of_ofPattern ht
  rw [toPattern, String.toList_ofList, hcan.expressible.filter_render]

/-- The extent of what was read is told by the number of characters. -/
theorem extent_eq_weight (ht : ofPattern limit pattern = .ok t) :
    t.extent = ⟨2 * weight pattern.toList, 1⟩ := by
  obtain ⟨hcan, -, rfl⟩ := canonical_of_ofPattern ht
  rw [toPattern, String.toList_ofList, hcan.expressible.extent_eq]

/-- **Nothing that was read is too deep to be built.** -/
theorem depth_le_of_ofPattern (ht : ofPattern limit pattern = .ok t) :
    t.depth ≤ limit :=
  Nat.le_trans t.depth_le_height (canonical_of_ofPattern ht).2.1

end Read

end Regex

namespace NFA

open Regex

variable {S : Alphabet Char} {L : Limits} {pattern : String} {t : Regex Char}

/-- What was read is built as its tree. -/
theorem ofPattern_eq_toNFA (ht : Regex.ofPattern L.nesting pattern = .ok t) :
    NFA.ofPattern S L pattern = t.toNFA S L := by
  rw [NFA.ofPattern, ht]

/-- **The first literal from outside the alphabet is refused**, however large
or deep the tree. -/
theorem ofPattern_eq_outsideSymbol
    (ht : Regex.ofPattern L.nesting pattern = .ok t) {u v : List Char}
    {c : Char} (hpattern : pattern.toList = u ++ c :: v)
    (hu : ∀ b ∈ u, isSign b = true ∨ b ∈ S) (hc : isSign c = false)
    (hcS : c ∉ S) :
    NFA.ofPattern S L pattern = .error (.outsideSymbol c) := by
  have hfirst : S.firstOutside t.leaves = some c := by
    rw [leaves_eq_filter ht, hpattern, List.filter_append,
      List.filter_cons_of_pos (by rw [hc]; rfl),
      Alphabet.firstOutside_eq_some_iff]
    refine ⟨hcS, _, _, rfl, fun b hb => ?_⟩
    obtain ⟨hbu, hsign⟩ := List.mem_filter.mp hb
    exact (hu b hbu).resolve_left (by simpa using hsign)
  exact (ofPattern_eq_toNFA ht).trans (toNFA_eq_outsideSymbol hfirst)

/-- **With no literal from outside** a pattern has one of the outcomes of its
tree. -/
theorem ofPattern_outcome (ht : Regex.ofPattern L.nesting pattern = .ok t)
    (hS : ∀ c ∈ pattern.toList, isSign c = true ∨ c ∈ S) :
    Outcome S L t.depth ⟨2 * weight pattern.toList, 1⟩ t.language
      (t.automaton S) (NFA.ofPattern S L pattern) := by
  have hleaves : ∀ c ∈ t.leaves, c ∈ S := fun c hc => by
    rw [leaves_eq_filter ht] at hc
    obtain ⟨hmem, hsign⟩ := List.mem_filter.mp hc
    exact (hS c hmem).resolve_left (by simpa using hsign)
  rw [ofPattern_eq_toNFA ht, ← extent_eq_weight ht]
  exact toNFA_outcome hleaves

/-- **What building a pattern comes to is told by its characters.** A pattern
that cannot be read is refused as reading refuses it, and none is refused for
its depth. Of a pattern that can be read the first literal from outside the
alphabet is refused. Without one, every character but a parenthesis takes two
states, for which there has to be room: if these are more than the limit an
automaton is refused that is larger than the limit and no larger than these,
and if they are not, there is an automaton with just these states, numbered
from zero on, one of which accepts. -/
theorem ofPattern_eq_by_characters (S : Alphabet Char) (L : Limits)
    (pattern : String) :
    (∀ f, NFA.ofPattern S L pattern = .error (.malformedPattern f) ↔
      Regex.ofPattern L.nesting pattern = .error f) ∧
    (∀ nesting, NFA.ofPattern S L pattern ≠ .error (.tooDeep nesting)) ∧
    ∀ t, Regex.ofPattern L.nesting pattern = .ok t →
      (∀ u c v, pattern.toList = u ++ c :: v →
        (∀ b ∈ u, isSign b = true ∨ b ∈ S) → isSign c = false → c ∉ S →
        NFA.ofPattern S L pattern = .error (.outsideSymbol c)) ∧
      ((∀ c ∈ pattern.toList, isSign c = true ∨ c ∈ S) →
        L.Room (2 * weight pattern.toList) →
        (∀ limit, L.states = some limit → limit < 2 * weight pattern.toList →
          ∃ states, limit < states ∧ states ≤ 2 * weight pattern.toList ∧
            NFA.ofPattern S L pattern
              = .error (.tooManyStates limit states)) ∧
        ((∀ limit, L.states = some limit →
            2 * weight pattern.toList ≤ limit) →
          ∃ A, NFA.ofPattern S L pattern = .ok A ∧
            A.size = 2 * weight pattern.toList ∧
            (∀ q, q ∈ A.states ↔ q.toNat < 2 * weight pattern.toList) ∧
            A.final.size = 1)) := by
  cases hread : Regex.ofPattern L.nesting pattern with
  | error g =>
    have hbuild : NFA.ofPattern S L pattern = .error (.malformedPattern g) := by
      rw [NFA.ofPattern, hread]
    rw [hbuild]
    exact ⟨fun f => by simp, nofun, nofun⟩
  | ok t =>
    have hdepth := depth_le_of_ofPattern hread
    refine ⟨fun f => ⟨fun h => ?_, nofun⟩, fun nesting h => ?_, ?_⟩
    · rw [ofPattern_eq_toNFA hread] at h
      rcases toNFA_error_cases h with ⟨_, h⟩ | ⟨h, -⟩ | ⟨_, _, h⟩ <;>
        exact absurd h nofun
    · rw [ofPattern_eq_toNFA hread] at h
      rcases toNFA_error_cases h with ⟨_, h⟩ | ⟨-, h⟩ | ⟨_, _, h⟩
      · exact absurd h nofun
      · exact absurd hdepth (Nat.not_le.mpr h)
      · exact absurd h nofun
    · rintro _ ⟨⟩
      refine ⟨fun u c v hpattern hu hc hcS =>
        ofPattern_eq_outsideSymbol hread hpattern hu hc hcS,
        fun hS hroom => ⟨fun limit hlimit hlarge =>
          (ofPattern_outcome hread hS).exists_tooManyStates hdepth hroom hlimit
            hlarge, fun hfit => ?_⟩⟩
      obtain ⟨hok, hreal⟩ :=
        (ofPattern_outcome hread hS).realizes hdepth hroom hfit
      have hids : 2 * weight pattern.toList ≤ UInt32.size :=
        hroom.le_size_of_le hfit
      refine ⟨_, hok, hreal.size_eq, fun q => ?_, hreal.size_final_eq⟩
      rw [hreal.states_eq, mem_idsFrom_iff (fit_zero hids)]
      simp

/-- A pattern of five characters that take states, where a letter is foreign,
where the limit is one state short, and where it is just met. -/
theorem ofPattern_eq_three_ways :
    (∃ t, Regex.ofPattern 250 "(a|b)*c" = .ok t) ∧
      weight "(a|b)*c".toList = 5 ∧
      NFA.ofPattern (Alphabet.ofString "ac") { states := some 9 } "(a|b)*c"
        = .error (.outsideSymbol 'b') ∧
      (∃ states, 9 < states ∧ states ≤ 10 ∧
        NFA.ofPattern (Alphabet.ofString "abc") { states := some 9 } "(a|b)*c"
          = .error (.tooManyStates 9 states)) ∧
      ∃ A, NFA.ofPattern (Alphabet.ofString "abc") { states := some 10 }
          "(a|b)*c" = .ok A ∧
        A.size = 10 ∧ (∀ q, q ∈ A.states ↔ q.toNat < 10) ∧
        A.final.size = 1 := by
  obtain ⟨t, ht⟩ : ∃ t, Regex.ofPattern 250 "(a|b)*c" = .ok t := ⟨_, rfl⟩
  have hweight : weight "(a|b)*c".toList = 5 := by decide
  have hS : ∀ c ∈ "(a|b)*c".toList,
      isSign c = true ∨ c ∈ Alphabet.ofString "abc" :=
    List.forall_iff_forall_mem.mp (by decide)
  have hshort : ({ states := some 9 } : Limits).Room 10 := Or.inl (by decide)
  have hmet : ({ states := some 10 } : Limits).Room 10 := Or.inl (by decide)
  refine ⟨⟨t, ht⟩, hweight, ?_, ?_, ?_⟩
  · exact ((ofPattern_eq_by_characters _ _ _).2.2 t ht).1 ['(', 'a', '|'] 'b'
      [')', '*', 'c'] rfl (List.forall_iff_forall_mem.mp (by decide)) rfl
      (by decide)
  · have h := ((ofPattern_eq_by_characters _ { states := some 9 } _).2.2 t
      ht).2 hS
    rw [hweight] at h
    exact (h hshort).1 9 rfl (by decide)
  · have h := ((ofPattern_eq_by_characters _ { states := some 10 } _).2.2 t
      ht).2 hS
    rw [hweight] at h
    exact (h hmet).2 fun limit hlimit => Nat.le_of_eq (Option.some.inj hlimit)

end NFA

end Recognizer
