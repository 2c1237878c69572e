import Mathlib.Data.List.Basic
import Recognizer.Regex.Canonical
import Recognizer.Regex.Reader

/-!
# What a reader has read

A reader keeps trees only, and yet nothing of the pattern is lost in them:
printing what a reader holds, open groups and all, gives back the characters
it has read (`Reader.text`). Together with the trees being canonical this is
the invariant of reading (`Reader.Canonical`). Each character adds itself to
the text, so that at the end of the pattern the tree prints to the pattern.

One part of the invariant looks ahead. A star must stand over a literal or a
group, and the reader makes sure of it one character early: when a star has
been read it refuses a second one right behind. Hence a star that is about
to be read finds a factor that is no star.
-/

namespace Recognizer.Regex

/-! ## Joined items -/

theorem join_of_length_ne_one {node : List (Regex Char) → Regex Char}
    {ts : List (Regex Char)} (h : ts.length ≠ 1) : join node ts = node ts := by
  unfold join
  split
  · exact absurd rfl h
  · rfl

/-- **Joined items are the single item, or the items under a node.** -/
theorem join_cases (node : List (Regex Char) → Regex Char)
    (ts : List (Regex Char)) :
    (∃ t, ts = [t] ∧ join node ts = t) ∨
      ts.length ≠ 1 ∧ join node ts = node ts := by
  by_cases hlen : ts.length = 1
  · obtain ⟨t, rfl⟩ := List.length_eq_one_iff.mp hlen
    exact Or.inl ⟨t, rfl, rfl⟩
  · exact Or.inr ⟨hlen, join_of_length_ne_one hlen⟩

/-- Factors that are canonical join to a canonical tree. -/
theorem canonical_join_sequence {ts : List (Regex Char)} (hne : ts ≠ [])
    (h : ∀ t ∈ ts, t.Canonical ∧ t.isFactor = true) :
    (join .sequence ts).Canonical := by
  obtain ⟨t, rfl, hjoin⟩ | ⟨hlen, hjoin⟩ := join_cases .sequence ts
  · exact (h t List.mem_cons_self).1
  · have hpos := List.length_pos_iff.mpr hne
    rw [hjoin]
    exact .sequence (by omega) (fun t ht => (h t ht).2) fun t ht => (h t ht).1

/-- Joined factors are no choice. -/
theorem isChoice_join_sequence {ts : List (Regex Char)}
    (h : ∀ t ∈ ts, t.isFactor = true) :
    (join .sequence ts).isChoice = false := by
  obtain ⟨t, rfl, hjoin⟩ | ⟨-, hjoin⟩ := join_cases .sequence ts
  · exact isChoice_of_isFactor (h t List.mem_cons_self)
  · rw [hjoin]
    rfl

/-- Joined factors print one after the other. -/
theorem render_join_sequence {ts : List (Regex Char)}
    (h : ∀ t ∈ ts, t.isFactor = true) :
    (join .sequence ts).render = ts.flatMap render := by
  obtain ⟨t, rfl, hjoin⟩ | ⟨-, hjoin⟩ := join_cases .sequence ts
  · exact (List.append_nil _).symm
  · rw [hjoin]
    exact renderFactors_eq_flatMap h

/-- Alternatives that are canonical join to a canonical tree. -/
theorem canonical_join_choice {ts : List (Regex Char)} (hne : ts ≠ [])
    (h : ∀ t ∈ ts, t.Canonical ∧ t.isChoice = false) :
    (join .choice ts).Canonical := by
  obtain ⟨t, rfl, hjoin⟩ | ⟨hlen, hjoin⟩ := join_cases .choice ts
  · exact (h t List.mem_cons_self).1
  · have hpos := List.length_pos_iff.mpr hne
    rw [hjoin]
    exact .choice (by omega) (fun t ht => (h t ht).2) fun t ht => (h t ht).1

/-- Alternatives, each with a bar behind it. -/
def renderBarred (ts : List (Regex Char)) : List Char :=
  ts.flatMap fun t => t.render ++ ['|']

theorem renderAlternatives_concat (ts : List (Regex Char)) (t : Regex Char) :
    renderAlternatives (ts ++ [t]) = '|' :: (renderBarred ts ++ t.render) := by
  induction ts with
  | nil => simp [renderAlternatives, renderBarred]
  | cons u us ih =>
    rw [List.cons_append, renderAlternatives, ih]
    simp [renderBarred]

/-- Joined alternatives print with bars between them. -/
theorem render_join_choice (ts : List (Regex Char)) (t : Regex Char) :
    (join .choice (ts ++ [t])).render = renderBarred ts ++ t.render := by
  cases ts with
  | nil => rfl
  | cons u us =>
    rw [join_of_length_ne_one (by simp), List.cons_append, render,
      renderAlternatives_concat]
    simp [renderBarred]

/-! ## Drafts -/

namespace Draft

/-- **What has been read of a draft.** -/
def text (d : Draft) : List Char :=
  renderBarred d.alternatives.reverse ++ d.factors.reverse.flatMap render

/-- The trees of a draft are canonical, and may stand where they do. -/
structure Canonical (d : Draft) : Prop where
  alternative : ∀ t ∈ d.alternatives, t.Canonical ∧ t.isChoice = false
  factor : ∀ t ∈ d.factors, t.Canonical ∧ t.isFactor = true

theorem canonical_empty : empty.Canonical := ⟨nofun, nofun⟩

@[simp] theorem text_empty : empty.text = [] := rfl

@[simp] theorem text_push (d : Draft) (t : Regex Char) :
    (d.push t).text = d.text ++ t.render := by
  simp [text, push]

variable {d : Draft}

theorem Canonical.push (hd : d.Canonical) {t : Regex Char} (ht : t.Canonical)
    (hfactor : t.isFactor = true) : (d.push t).Canonical where
  alternative := hd.alternative
  factor u hu := by
    rcases List.mem_cons.mp hu with rfl | hu
    · exact ⟨ht, hfactor⟩
    · exact hd.factor u hu

theorem Canonical.factor_reverse (hd : d.Canonical) :
    ∀ t ∈ d.factors.reverse, t.Canonical ∧ t.isFactor = true := fun t ht =>
  hd.factor t (List.mem_reverse.mp ht)

theorem Canonical.canonical_alternative (hd : d.Canonical)
    (hne : d.factors ≠ []) :
    d.alternative.Canonical ∧ d.alternative.isChoice = false :=
  ⟨canonical_join_sequence (List.reverse_ne_nil_iff.mpr hne)
      hd.factor_reverse,
    isChoice_join_sequence fun t ht => (hd.factor_reverse t ht).2⟩

theorem Canonical.render_alternative (hd : d.Canonical) :
    d.alternative.render = d.factors.reverse.flatMap render :=
  render_join_sequence fun t ht => (hd.factor_reverse t ht).2

theorem Canonical.canonical_choice (hd : d.Canonical)
    (hne : d.factors ≠ []) : d.choice.Canonical := by
  refine canonical_join_choice (by simp) fun t ht => ?_
  rcases List.mem_cons.mp (List.mem_reverse.mp ht) with rfl | ht
  · exact hd.canonical_alternative hne
  · exact hd.alternative t ht

/-- **A draft prints to what has been read of it.** -/
theorem Canonical.render_choice (hd : d.Canonical) :
    d.choice.render = d.text := by
  rw [choice, List.reverse_cons, render_join_choice, hd.render_alternative]
  rfl

end Draft

/-! ## Readers -/

namespace Reader

/-- **What a reader has read.** -/
def text (r : Reader) : List Char :=
  (r.groups.reverse.flatMap fun g => g.2.text ++ ['(']) ++ r.draft.text

/-- **The invariant of reading**, with the rest of the pattern ahead. -/
structure Canonical (r : Reader) (rest : List Char) : Prop where
  draft : r.draft.Canonical
  group : ∀ g ∈ r.groups, g.2.Canonical
  star : ∀ t ts, r.draft.factors = t :: ts → rest.head? = some '*' →
    t.isAtom = true

variable {limit : Nat} {r s : Reader} {c : Char} {rest : List Char}

theorem canonical_start (rest : List Char) : start.Canonical rest :=
  ⟨Draft.canonical_empty, nofun, nofun⟩

/-- Every character is one of the signs or a literal. -/
theorem sign_cases (c : Char) :
    c = '|' ∨ c = '(' ∨ c = ')' ∨ c = '*' ∨ isSign c = false := by
  by_cases hc : isSign c = false
  · exact Or.inr (Or.inr (Or.inr (Or.inr hc)))
  · simp only [isSign, Bool.not_eq_false, Bool.or_eq_true,
      decide_eq_true_eq] at hc
    tauto

theorem step_literal (hc : isSign c = false) :
    r.step limit c rest = .ok (r.literal c) := by
  unfold step
  split <;> simp_all [isSign]

/-- Which of the steps a character takes. -/
theorem step_cases (h : r.step limit c rest = .ok s) :
    (c = '|' ∧ r.bar limit = .ok s) ∨ (c = '(' ∧ r.openGroup limit = .ok s) ∨
      (c = ')' ∧ r.closeGroup limit = .ok s) ∨
      (c = '*' ∧ r.star limit rest = .ok s) ∨
      (isSign c = false ∧ s = r.literal c) := by
  unfold step at h
  split at h
  · exact Or.inl ⟨rfl, h⟩
  · exact Or.inr (Or.inl ⟨rfl, h⟩)
  · exact Or.inr (Or.inr (Or.inl ⟨rfl, h⟩))
  · exact Or.inr (Or.inr (Or.inr (Or.inl ⟨rfl, h⟩)))
  · refine Or.inr (Or.inr (Or.inr (Or.inr ⟨?_, (Except.ok.inj h).symm⟩)))
    simp_all [isSign]

namespace Canonical

theorem bar {rest' : List Char} (hr : r.Canonical rest)
    (h : r.bar limit = .ok s) :
    s.Canonical rest' ∧ s.text = r.text ++ ['|'] := by
  obtain ⟨hne, -, rfl⟩ := bar_eq_ok_iff.mp h
  refine ⟨⟨⟨fun t ht => ?_, nofun⟩, hr.group, nofun⟩, ?_⟩
  · rcases List.mem_cons.mp ht with rfl | ht
    · exact hr.draft.canonical_alternative hne
    · exact hr.draft.alternative t ht
  · simp [text, Draft.text, renderBarred, hr.draft.render_alternative]

theorem openGroup {rest' : List Char} (hr : r.Canonical rest)
    (h : r.openGroup limit = .ok s) :
    s.Canonical rest' ∧ s.text = r.text ++ ['('] := by
  obtain ⟨-, rfl⟩ := openGroup_eq_ok_iff.mp h
  refine ⟨⟨Draft.canonical_empty, fun g hg => ?_, nofun⟩, ?_⟩
  · rcases List.mem_cons.mp hg with rfl | hg
    · exact hr.draft
    · exact hr.group g hg
  · simp [text]

theorem closeGroup {rest' : List Char} (hr : r.Canonical rest)
    (h : r.closeGroup limit = .ok s) :
    s.Canonical rest' ∧ s.text = r.text ++ [')'] := by
  obtain ⟨opened, outer, groups, hgroups, hne, -, rfl⟩ :=
    closeGroup_eq_ok_iff.mp h
  have houter : ∀ g ∈ (opened, outer) :: groups, g.2.Canonical :=
    hgroups ▸ hr.group
  have hgroup : (Regex.group r.draft.choice).Canonical :=
    .group (hr.draft.canonical_choice hne)
  refine ⟨⟨(houter _ List.mem_cons_self).push hgroup rfl,
    fun g hg => houter g (List.mem_cons_of_mem _ hg), fun t ts hts _ => ?_⟩, ?_⟩
  · cases hts
    rfl
  · simp [text, hgroups, render, parenthesize, hr.draft.render_choice]

theorem star_step (hr : r.Canonical ('*' :: rest))
    (h : r.star limit rest = .ok s) :
    s.Canonical rest ∧ s.text = r.text ++ ['*'] := by
  obtain ⟨t, ts, hts, hrest, -, rfl⟩ := star_eq_ok_iff.mp h
  have hatom : t.isAtom = true := hr.star t ts hts rfl
  have hfactor : ∀ u ∈ t :: ts, u.Canonical ∧ u.isFactor = true :=
    hts ▸ hr.draft.factor
  -- the newest factor is a star now, but no star follows
  refine ⟨⟨⟨hr.draft.alternative, fun u hu => ?_⟩, hr.group,
    fun _ _ _ hstar => absurd hstar hrest⟩, ?_⟩
  · rcases List.mem_cons.mp hu with rfl | hu
    · exact ⟨.star hatom (hfactor t List.mem_cons_self).1, rfl⟩
    · exact hfactor u (List.mem_cons_of_mem _ hu)
  · simp [text, Draft.text, hts, render, hatom]

theorem literal {rest' : List Char} (hr : r.Canonical rest)
    (hc : isSign c = false) :
    (r.literal c).Canonical rest' ∧ (r.literal c).text = r.text ++ [c] := by
  refine ⟨⟨hr.draft.push (.literal hc) rfl, hr.group, fun t ts hts _ => ?_⟩, ?_⟩
  · cases hts
    rfl
  · simp [text, Reader.literal, render, SymbolText.plain]

/-- **A step keeps the invariant** and adds its character to the text. -/
theorem step (hr : r.Canonical (c :: rest))
    (h : r.step limit c rest = .ok s) :
    s.Canonical rest ∧ s.text = r.text ++ [c] := by
  obtain ⟨rfl, h⟩ | ⟨rfl, h⟩ | ⟨rfl, h⟩ | ⟨rfl, h⟩ | ⟨hc, rfl⟩ := step_cases h
  · exact hr.bar h
  · exact hr.openGroup h
  · exact hr.closeGroup h
  · exact hr.star_step h
  · exact hr.literal hc

/-- **What is read is canonical, not too high, and prints to the pattern.** -/
theorem run (hr : r.Canonical rest) {t : Regex Char}
    (h : r.run limit rest = .ok t) :
    t.Canonical ∧ t.height ≤ limit ∧ t.render = r.text ++ rest := by
  induction rest generalizing r with
  | nil =>
    obtain ⟨hne, hgroups, hheight, rfl⟩ := finish_eq_ok_iff.mp h
    refine ⟨hr.draft.canonical_choice hne, hheight, ?_⟩
    simp [text, hgroups, hr.draft.render_choice]
  | cons c rest ih =>
    obtain ⟨s, hstep, hrun⟩ := run_cons_eq_ok_iff.mp h
    obtain ⟨hs, htext⟩ := hr.step hstep
    obtain ⟨hcanonical, hheight, hrender⟩ := ih hs hrun
    refine ⟨hcanonical, hheight, ?_⟩
    rw [hrender, htext, List.append_assoc]
    rfl

end Canonical

end Reader

end Recognizer.Regex
