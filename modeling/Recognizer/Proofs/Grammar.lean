import Recognizer.Proofs.RoundTrip
import Recognizer.Regex.Grammar

/-!
# Patterns and the trees they are read as

The grammar of patterns and the canonical trees describe the same texts: a
text is a pattern exactly when some canonical tree prints to it
(`isPattern_iff_exists_canonical`).

From a derivation to a tree, each category says what it leaves behind
(`Spelled`): an atom or a factor leaves a tree, a sequence its factors, a
choice its alternatives, which are joined only where the category ends. From a
tree to a derivation, a canonical tree has a category of its own, and prints to
a text of it.
-/

namespace Recognizer.Regex

/-! ## From derivations to trees -/

/-- **What a text of a category leaves behind.** -/
def Spelled : Category → List Char → Prop
  | .atom, u => ∃ t : Regex Char, t.Canonical ∧ t.isAtom = true ∧ t.render = u
  | .factor, u =>
    ∃ t : Regex Char, (t.Canonical ∧ t.isFactor = true) ∧ t.render = u
  | .sequence, u => ∃ ts : List (Regex Char), ts ≠ [] ∧
    (∀ t ∈ ts, t.Canonical ∧ t.isFactor = true) ∧ ts.flatMap render = u
  | .choice, u => ∃ (ts : List (Regex Char)) (t : Regex Char),
    (∀ x ∈ ts ++ [t], x.Canonical ∧ x.isChoice = false) ∧
      renderBarred ts ++ t.render = u

/-- Factors in a row join to an alternative. -/
theorem Spelled.exists_alternative {u : List Char}
    (h : Spelled .sequence u) :
    ∃ t : Regex Char, (t.Canonical ∧ t.isChoice = false) ∧ t.render = u := by
  obtain ⟨ts, hne, hts, rfl⟩ := h
  have hfactor : ∀ t ∈ ts, t.isFactor = true := fun t ht => (hts t ht).2
  exact ⟨join .sequence ts, ⟨canonical_join_sequence hne hts,
    isChoice_join_sequence hfactor⟩, render_join_sequence hfactor⟩

/-- Alternatives with bars between them join to a tree. -/
theorem Spelled.exists_canonical {u : List Char} (h : Spelled .choice u) :
    ∃ t : Regex Char, t.Canonical ∧ t.render = u := by
  obtain ⟨ts, t, hts, rfl⟩ := h
  exact ⟨join .choice (ts ++ [t]), canonical_join_choice (by simp) hts,
    render_join_choice ts t⟩

/-- **Every derivation leaves behind what its category says.** -/
theorem Derives.spelled {k : Category} {u : List Char} (h : Derives k u) :
    Spelled k u := by
  induction h with
  | alternative _ ih =>
    obtain ⟨t, ht, hu⟩ := ih.exists_alternative
    exact ⟨[], t, by simpa using ht, by simpa [renderBarred] using hu⟩
  | bar _ _ ihu ihv =>
    obtain ⟨t, ht, rfl⟩ := ihu.exists_alternative
    obtain ⟨us, u, hus, rfl⟩ := ihv
    refine ⟨t :: us, u, fun x hx => ?_, by simp [renderBarred]⟩
    rcases List.mem_cons.mp hx with rfl | hx
    · exact ht
    · exact hus x hx
  | single _ ih =>
    obtain ⟨t, ht, rfl⟩ := ih
    exact ⟨[t], by simp, by simpa using ht, by simp⟩
  | juxtapose _ _ ihu ihv =>
    obtain ⟨t, ht, rfl⟩ := ihu
    obtain ⟨ts, -, hts, rfl⟩ := ihv
    exact ⟨t :: ts, by simp, List.forall_mem_cons.mpr ⟨ht, hts⟩, by simp⟩
  | plain _ ih =>
    obtain ⟨t, ht, hatom, hu⟩ := ih
    exact ⟨t, ⟨ht, isFactor_of_isAtom hatom⟩, hu⟩
  | star _ ih =>
    obtain ⟨t, ht, hatom, rfl⟩ := ih
    exact ⟨.star t, ⟨.star hatom ht, rfl⟩, by rw [render, if_pos hatom]⟩
  | literal hc => exact ⟨.literal _, .literal hc, rfl, rfl⟩
  | group _ ih =>
    obtain ⟨t, ht, rfl⟩ := ih.exists_canonical
    exact ⟨.group t, .group ht, rfl, rfl⟩

/-! ## From trees to derivations -/

/-- The category of a tree's text, the finest there is. -/
def category : Regex Char → Category
  | literal _ => .atom
  | sequence _ => .sequence
  | choice _ => .choice
  | star _ => .factor
  | group _ => .atom

variable {t : Regex Char} {u : List Char}

theorem Derives.factor_of_isFactor (hfactor : t.isFactor = true)
    (h : Derives t.category u) : Derives .factor u := by
  cases t with
  | literal => exact .plain h
  | group => exact .plain h
  | star => exact h
  | sequence => exact absurd hfactor nofun
  | choice => exact absurd hfactor nofun

theorem Derives.sequence_of_not_isChoice (hchoice : t.isChoice = false)
    (h : Derives t.category u) : Derives .sequence u := by
  cases t with
  | sequence => exact h
  | choice => exact absurd hchoice nofun
  | _ => exact .single (h.factor_of_isFactor rfl)

theorem Derives.isPattern (h : Derives t.category u) : IsPattern u := by
  cases t with
  | choice => exact h
  | _ => exact .alternative (h.sequence_of_not_isChoice rfl)

/-- Factors in a row are a sequence. -/
theorem derives_flatMap {ts : List (Regex Char)} (hne : ts ≠ [])
    (h : ∀ t ∈ ts, Derives .factor t.render) :
    Derives .sequence (ts.flatMap render) := by
  induction ts with
  | nil => exact absurd rfl hne
  | cons t ts ih =>
    obtain ⟨ht, hts⟩ := List.forall_mem_cons.mp h
    rw [List.flatMap_cons]
    cases ts with
    | nil =>
      rw [List.flatMap_nil, List.append_nil]
      exact .single ht
    | cons u us => exact .juxtapose ht (ih (by simp) hts)

/-- A sequence and others, each behind a bar, are a choice. -/
theorem derives_renderAlternatives {ts : List (Regex Char)}
    (h : ∀ t ∈ ts, Derives .sequence t.render) (hu : Derives .sequence u) :
    Derives .choice (u ++ renderAlternatives ts) := by
  induction ts generalizing u with
  | nil =>
    rw [renderAlternatives, List.append_nil]
    exact .alternative hu
  | cons t ts ih =>
    obtain ⟨ht, hts⟩ := List.forall_mem_cons.mp h
    exact .bar hu (ih hts ht)

/-- **A canonical tree prints to a text of its category.** -/
theorem Canonical.derives (ht : t.Canonical) : Derives t.category t.render := by
  induction ht with
  | literal hc => exact .literal hc
  | sequence hlen hfactor _ ih =>
    rw [render, renderFactors_eq_flatMap hfactor]
    exact derives_flatMap (ne_nil_of_two_le hlen) fun t ht =>
      (ih t ht).factor_of_isFactor (hfactor t ht)
  | @choice ts hlen hchoice _ ih =>
    have hitems : ∀ t ∈ ts, Derives .sequence t.render := fun t ht =>
      (ih t ht).sequence_of_not_isChoice (hchoice t ht)
    cases ts with
    | nil => exact absurd hlen (by simp)
    | cons t ts =>
      obtain ⟨ht, hts⟩ := List.forall_mem_cons.mp hitems
      exact derives_renderAlternatives hts ht
  | @star t hatom _ ih =>
    have hcategory : t.category = .atom := by
      cases t <;> simp_all [isAtom, category]
    rw [render, if_pos hatom]
    exact .star (hcategory ▸ ih)
  | group _ ih => exact .group ih.isPattern

/-- **The patterns are the texts of the canonical trees.** -/
theorem isPattern_iff_exists_canonical :
    IsPattern u ↔ ∃ t : Regex Char, t.Canonical ∧ t.render = u :=
  ⟨fun h => (Derives.spelled h).exists_canonical,
    fun ⟨_, ht, hu⟩ => hu ▸ ht.derives.isPattern⟩

/-- **The patterns are the texts that are read**, under some limit. -/
theorem isPattern_iff_exists_read :
    IsPattern u ↔ ∃ limit t, read limit u = .ok t := by
  rw [isPattern_iff_exists_canonical]
  constructor
  · rintro ⟨t, ht, rfl⟩
    have hread := ofPattern_toPattern ht (Nat.le_refl t.height)
    rw [ofPattern, toPattern, String.toList_ofList] at hread
    exact ⟨t.height, t, hread⟩
  · rintro ⟨limit, t, h⟩
    obtain ⟨ht, -, hrender⟩ := (Reader.canonical_start u).run h
    exact ⟨t, ht, hrender⟩

end Recognizer.Regex
