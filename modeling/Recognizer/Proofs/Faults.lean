import Recognizer.Proofs.Grammar
import Recognizer.Proofs.Nesting

/-!
# Where a text stops being a pattern

A text that is no pattern has a longest beginning that still begins one, and
the fault that reading reports is the one the grammar finds behind that
beginning (`ofPattern_error_at_longest_viable`).

The argument goes by the reader that a beginning leads to (`Reader.Reaches`).
Such a beginning always begins a pattern: give the draft a factor, close the
groups one by one, and a pattern has been read (`Reader.Canonical.viable`).
Whether one more character may follow depends on the reader alone
(`Reader.Admits`), for the reader is the same under every limit and whatever
comes next. So where reading stops for any reason but the limit, the character
it stops at is one that nothing could follow.

One fault is found a character early. A star looks whether another star stands
right behind it, and then the longest beginning takes in the first of the two.
-/

namespace Recognizer.Regex

namespace Reader

variable {limit limit' : Nat} {r s s' : Reader} {c : Char}
  {u v w rest rest' : List Char} {f : PatternFault} {t : Regex Char}

/-! ## Beginnings that are read -/

/-- **The reader behind the beginning of a text**, with the rest ahead. -/
inductive Reaches (limit : Nat) : List Char → List Char → Reader → Prop where
  | start (rest : List Char) : Reaches limit [] rest .start
  | step {u rest : List Char} {c : Char} {r s : Reader} :
      Reaches limit u (c :: rest) r → r.step limit c rest = .ok s →
      Reaches limit (u ++ [c]) rest s

theorem reaches_concat_iff :
    Reaches limit (u ++ [c]) rest s ↔
      ∃ r, Reaches limit u (c :: rest) r ∧ r.step limit c rest = .ok s := by
  refine ⟨fun h => ?_, fun ⟨r, hr, hstep⟩ => .step hr hstep⟩
  generalize hu : u ++ [c] = w at h
  cases h with
  | start => exact absurd hu (by simp)
  | step hr hstep =>
    obtain ⟨rfl, hc⟩ := List.append_inj' hu rfl
    obtain rfl := List.singleton_inj.mp hc
    exact ⟨_, hr, hstep⟩

/-- A step that succeeds does the same under a higher limit. -/
theorem step_mono (h : r.step limit c rest = .ok s) (hle : limit ≤ limit') :
    r.step limit' c rest = .ok s := by
  obtain heq | ⟨_, herror, -⟩ := step_cutsOff hle r c rest
  · rw [← heq, h]
  · rw [h] at herror
    exact absurd herror nofun

/-- A step looks at nothing ahead but a star. -/
theorem step_ahead (h : r.step limit c rest = .ok s)
    (hahead : rest'.head? = some '*' → rest.head? = some '*') :
    r.step limit c rest' = .ok s := by
  obtain ⟨rfl, h⟩ | ⟨rfl, h⟩ | ⟨rfl, h⟩ | ⟨rfl, h⟩ | ⟨hc, rfl⟩ := step_cases h
  · exact h
  · exact h
  · exact h
  · obtain ⟨t, ts, hts, hrest, hheight, rfl⟩ := star_eq_ok_iff.mp h
    exact star_eq_ok_iff.mpr
      ⟨t, ts, hts, fun hstar => hrest (hahead hstar), hheight, rfl⟩
  · exact step_literal hc

namespace Reaches

theorem mono (h : Reaches limit u rest s) (hle : limit ≤ limit') :
    Reaches limit' u rest s := by
  induction h with
  | start rest => exact .start rest
  | step _ hstep ih => exact .step ih (step_mono hstep hle)

theorem ahead (h : Reaches limit u rest s)
    (hahead : rest'.head? = some '*' → rest.head? = some '*') :
    Reaches limit u rest' s := by
  induction h generalizing rest' with
  | start => exact .start rest'
  | step _ hstep ih =>
    exact .step (ih (by simp)) (step_ahead hstep hahead)

/-- **There is one reader behind a beginning**, under every limit and whatever
is ahead. -/
theorem unique (h : Reaches limit u rest s) (h' : Reaches limit' u rest' s') :
    s = s' := by
  -- put both under one limit, with nothing ahead
  replace h : Reaches (max limit limit') u [] s :=
    (h.mono (Nat.le_max_left ..)).ahead nofun
  replace h' : Reaches (max limit limit') u [] s' :=
    (h'.mono (Nat.le_max_right ..)).ahead nofun
  generalize ([] : List Char) = ahead at h h'
  induction h generalizing s' with
  | start =>
    generalize hu : ([] : List Char) = w at h'
    cases h' with
    | start => rfl
    | step => exact absurd hu (by simp)
  | step _ hstep ih =>
    obtain ⟨r', hr', hstep'⟩ := reaches_concat_iff.mp h'
    obtain rfl := ih hr'
    exact Except.ok.inj (hstep.symm.trans hstep')

/-- The reader has read the beginning, and nothing it holds is amiss. -/
theorem canonical (h : Reaches limit u rest s) :
    s.Canonical rest ∧ s.text = u := by
  induction h with
  | start rest => exact ⟨canonical_start rest, rfl⟩
  | step _ hstep ih =>
    obtain ⟨hcanonical, htext⟩ := ih.1.step hstep
    exact ⟨hcanonical, by rw [htext, ih.2]⟩

/-- The beginnings of a text that is read lead to readers. -/
theorem exists_of_run (h : Reaches limit w (u ++ rest) r)
    (hrun : r.run limit (u ++ rest) = .ok t) :
    ∃ s, Reaches limit (w ++ u) rest s := by
  induction u generalizing w r with
  | nil => exact ⟨r, by rwa [List.append_nil]⟩
  | cons c u ih =>
    obtain ⟨s, hstep, hrun⟩ := run_cons_eq_ok_iff.mp hrun
    obtain ⟨s', hs'⟩ := ih (.step h hstep) hrun
    exact ⟨s', by rwa [← List.append_cons] at hs'⟩

/-! ### What a beginning shows of its reader -/

/-- **The place of a reader**: the bytes of the beginning. -/
theorem position_eq (h : Reaches limit u rest s) :
    s.position = byteLength u := by
  induction h with
  | start => rfl
  | step _ hstep ih =>
    rw [position_of_step hstep, ih, byteLength_concat]

/-- **The open groups of a reader**: those that the beginning leaves open. -/
theorem map_groups_eq (h : Reaches limit u rest s) :
    s.groups.map Prod.fst = openGroups u := by
  induction h with
  | start => rfl
  | @step u rest c r s hr hstep ih =>
    obtain ⟨rfl, hstep⟩ | ⟨rfl, hstep⟩ | ⟨rfl, hstep⟩ | ⟨rfl, hstep⟩ |
      ⟨hc, rfl⟩ := step_cases hstep
    · obtain ⟨-, -, rfl⟩ := bar_eq_ok_iff.mp hstep
      rw [openGroups_concat_of_ne (by decide) (by decide), ← ih]
    · obtain ⟨-, rfl⟩ := openGroup_eq_ok_iff.mp hstep
      rw [openGroups_concat_open, ← ih, ← hr.position_eq, List.map_cons]
    · obtain ⟨_, _, _, hgroups, -, -, rfl⟩ := closeGroup_eq_ok_iff.mp hstep
      rw [openGroups_concat_close, ← ih, hgroups, List.map_cons,
        List.tail_cons]
    · obtain ⟨_, _, -, -, -, rfl⟩ := star_eq_ok_iff.mp hstep
      rw [openGroups_concat_of_ne (by decide) (by decide), ← ih]
    · have hopen : c ≠ '(' := by
        rintro rfl
        exact absurd hc (by decide)
      have hclose : c ≠ ')' := by
        rintro rfl
        exact absurd hc (by decide)
      rw [openGroups_concat_of_ne hopen hclose, ← ih]
      rfl

theorem groups_eq_nil_iff (h : Reaches limit u rest s) :
    s.groups = [] ↔ openGroups u = [] := by
  rw [← h.map_groups_eq, List.map_eq_nil_iff]

/-- **A reader without a factor** stands where an alternative begins. -/
theorem factors_eq_nil_iff (h : Reaches limit u rest s) :
    s.draft.factors = [] ↔ needsFactor u = true := by
  induction h with
  | start => exact ⟨fun _ => rfl, fun _ => rfl⟩
  | step _ hstep _ =>
    rw [needsFactor_concat]
    obtain ⟨rfl, hstep⟩ | ⟨rfl, hstep⟩ | ⟨rfl, hstep⟩ | ⟨rfl, hstep⟩ |
      ⟨hc, rfl⟩ := step_cases hstep
    · obtain ⟨-, -, rfl⟩ := bar_eq_ok_iff.mp hstep
      simp
    · obtain ⟨-, rfl⟩ := openGroup_eq_ok_iff.mp hstep
      simp [Draft.empty]
    · obtain ⟨_, _, _, -, -, -, rfl⟩ := closeGroup_eq_ok_iff.mp hstep
      simp [Draft.push]
    · obtain ⟨_, _, -, -, -, rfl⟩ := star_eq_ok_iff.mp hstep
      simp
    · simp_all [isSign, literal, Draft.push]

end Reaches

/-! ## Whatever is read begins a pattern -/

/-- A reader that has a factor needs only its groups closed. -/
theorem Canonical.viable_of_factors (hr : r.Canonical [])
    (hne : r.draft.factors ≠ []) : Viable r.text := by
  generalize hgroups : r.groups = groups
  induction groups generalizing r with
  | nil =>
    refine ⟨[], isPattern_iff_exists_canonical.mpr
      ⟨r.draft.choice, hr.draft.canonical_choice hne, ?_⟩⟩
    simp [text, hgroups, hr.draft.render_choice]
  | cons g groups ih =>
    obtain ⟨s, hclose, hs, hfactor⟩ :
        ∃ s, r.closeGroup (Regex.group r.draft.choice).height = .ok s ∧
          s.groups = groups ∧ s.draft.factors ≠ [] :=
      ⟨_, closeGroup_eq_ok_iff.mpr
          ⟨g.1, g.2, groups, hgroups, hne, Nat.le_refl _, rfl⟩,
        rfl, List.cons_ne_nil _ _⟩
    obtain ⟨hcanonical, htext⟩ : s.Canonical [] ∧ s.text = r.text ++ [')'] :=
      hr.closeGroup hclose
    have hviable := ih hcanonical hfactor hs
    rw [htext] at hviable
    exact hviable.of_prefix (List.prefix_append _ _)

/-- **Whatever has been read begins a pattern.** -/
theorem Canonical.viable (hr : r.Canonical []) : Viable r.text := by
  -- any literal will do as a factor
  obtain ⟨hcanonical, htext⟩ : (r.literal 'a').Canonical [] ∧
      (r.literal 'a').text = r.text ++ ['a'] := hr.literal (by decide)
  have hviable := hcanonical.viable_of_factors (List.cons_ne_nil _ _)
  rw [htext] at hviable
  exact hviable.of_prefix (List.prefix_append _ _)

theorem Reaches.viable (h : Reaches limit u rest s) : Viable u := by
  have hend : Reaches limit u [] s := h.ahead nofun
  obtain ⟨hcanonical, rfl⟩ := hend.canonical
  exact hcanonical.viable

/-! ## What may follow -/

/-- **Whether a character may follow** what has been read. -/
def Admits (r : Reader) : Char → Prop
  | '|' => r.draft.factors ≠ []
  | ')' => r.groups ≠ [] ∧ r.draft.factors ≠ []
  | '*' => ∃ t ts, r.draft.factors = t :: ts ∧ t.isAtom = true
  | _ => True

theorem admits_of_step (hr : r.Canonical (c :: rest))
    (h : r.step limit c rest = .ok s) : r.Admits c := by
  obtain ⟨rfl, h⟩ | ⟨rfl, h⟩ | ⟨rfl, h⟩ | ⟨rfl, h⟩ | ⟨hc, -⟩ := step_cases h
  · exact (bar_eq_ok_iff.mp h).1
  · trivial
  · obtain ⟨_, _, _, hgroups, hne, -, -⟩ := closeGroup_eq_ok_iff.mp h
    exact ⟨by simp [hgroups], hne⟩
  · obtain ⟨t, ts, hts, -, -, -⟩ := star_eq_ok_iff.mp h
    exact ⟨t, ts, hts, hr.star t ts hts rfl⟩
  · unfold Admits
    split <;> simp_all [isSign]

/-- What may follow is read, if the limit is high enough. -/
theorem exists_step_of_admits (h : r.Admits c) :
    ∃ limit s, r.step limit c [] = .ok s := by
  obtain rfl | rfl | rfl | rfl | hc := sign_cases c
  · exact ⟨r.draft.alternative.height, _,
      bar_eq_ok_iff.mpr ⟨h, Nat.le_refl _, rfl⟩⟩
  · exact ⟨r.groups.length + 1, _,
      openGroup_eq_ok_iff.mpr ⟨Nat.lt_succ_self _, rfl⟩⟩
  · obtain ⟨⟨opened, outer⟩, groups, hgroups⟩ :=
      List.exists_cons_of_ne_nil h.1
    exact ⟨(group r.draft.choice).height, _, closeGroup_eq_ok_iff.mpr
      ⟨opened, outer, groups, hgroups, h.2, Nat.le_refl _, rfl⟩⟩
  · obtain ⟨t, ts, hts, -⟩ := h
    exact ⟨(Regex.star t).height, _, star_eq_ok_iff.mpr
      ⟨t, ts, hts, nofun, Nat.le_refl _, rfl⟩⟩
  · exact ⟨0, _, step_literal hc⟩

/-- A reader that admits a character may have it ahead. -/
theorem Canonical.of_admits (hr : r.Canonical rest) (h : r.Admits c) :
    r.Canonical [c] := by
  refine ⟨hr.draft, hr.group, fun t ts hts hstar => ?_⟩
  obtain rfl : c = '*' := Option.some.inj hstar
  obtain ⟨u, us, hus, hatom⟩ := h
  rw [hts] at hus
  rwa [(List.cons.inj hus).1]

/-- **A beginning goes on with what its reader admits.** -/
theorem Reaches.viable_concat_iff (h : Reaches limit u rest s) :
    Viable (u ++ [c]) ↔ s.Admits c := by
  constructor
  · rintro ⟨v, hv⟩
    obtain ⟨limit', t, hread⟩ := isPattern_iff_exists_read.mp hv
    obtain ⟨s', hs'⟩ := exists_of_run (.start (u ++ [c] ++ v)) hread
    obtain ⟨r, hr, hstep⟩ := reaches_concat_iff.mp hs'
    obtain rfl := h.unique hr
    exact admits_of_step hr.canonical.1 hstep
  · intro hadmits
    obtain ⟨hcanonical, rfl⟩ := h.canonical
    obtain ⟨limit', s', hstep⟩ := exists_step_of_admits hadmits
    obtain ⟨hcanonical', htext⟩ := (hcanonical.of_admits hadmits).step hstep
    rw [← htext]
    exact hcanonical'.viable

/-! ## The faults -/

/-- What a check does not refuse fails only later. -/
theorem checkHeight_bind_eq_error {β : Type} {position : Nat}
    {g : Regex Char → Except PatternFault β}
    (h : (checkHeight limit position t >>= g) = .error f)
    (hkind : f.kind ≠ .nestedTooDeep) : g t = .error f := by
  by_cases hheight : t.height ≤ limit
  · rwa [checkHeight_eq_ok hheight] at h
  · rw [checkHeight, if_pos (Nat.not_le.mp hheight)] at h
    exact absurd (Except.error.inj h ▸ rfl) hkind

theorem bar_eq_error (h : r.bar limit = .error f)
    (hkind : f.kind ≠ .nestedTooDeep) :
    r.draft.factors = [] ∧ f = r.fault .missingFactor := by
  unfold bar at h
  split at h
  · next hempty =>
    exact ⟨List.isEmpty_iff.mp hempty, (Except.error.inj h).symm⟩
  · exact absurd (checkHeight_bind_eq_error h hkind) nofun

theorem openGroup_eq_error (h : r.openGroup limit = .error f) :
    f.kind = .nestedTooDeep := by
  unfold openGroup at h
  split at h
  · exact (Except.error.inj h) ▸ rfl
  · exact absurd h nofun

theorem closeGroup_eq_error (h : r.closeGroup limit = .error f)
    (hkind : f.kind ≠ .nestedTooDeep) :
    (r.groups = [] ∧ f = r.fault .unopenedGroup) ∨
      (r.groups ≠ [] ∧ r.draft.factors = [] ∧ f = r.fault .missingFactor) := by
  unfold closeGroup at h
  split at h
  · next hgroups => exact Or.inl ⟨hgroups, (Except.error.inj h).symm⟩
  · next hgroups =>
    split at h
    · next hempty =>
      exact Or.inr ⟨by simp [hgroups], List.isEmpty_iff.mp hempty,
        (Except.error.inj h).symm⟩
    · have houter := checkHeight_bind_eq_error h hkind
      exact absurd (checkHeight_bind_eq_error houter hkind) nofun

theorem star_eq_error (h : r.star limit rest = .error f)
    (hkind : f.kind ≠ .nestedTooDeep) :
    (r.draft.factors = [] ∧ f = r.fault .starWithoutFactor) ∨
      (r.draft.factors ≠ [] ∧ rest.head? = some '*' ∧
        f = ⟨.starWithoutFactor, r.position + 1⟩) := by
  unfold star at h
  split at h
  · next hfactors => exact Or.inl ⟨hfactors, (Except.error.inj h).symm⟩
  · next hfactors =>
    split at h
    · next hstar =>
      exact Or.inr ⟨by simp [hfactors], hstar, (Except.error.inj h).symm⟩
    · exact absurd (checkHeight_bind_eq_error h hkind) nofun

theorem finish_eq_error (h : r.finish limit = .error f)
    (hkind : f.kind ≠ .nestedTooDeep) :
    (r.draft.factors = [] ∧ f = r.fault .missingFactor) ∨
      (r.draft.factors ≠ [] ∧ ∃ opened outer groups,
        r.groups = (opened, outer) :: groups ∧
          f = ⟨.unclosedGroup, opened⟩) := by
  unfold finish at h
  split at h
  · next hempty =>
    exact Or.inl ⟨List.isEmpty_iff.mp hempty, (Except.error.inj h).symm⟩
  · next hempty =>
    have hmatch := checkHeight_bind_eq_error h hkind
    refine Or.inr ⟨by simpa using hempty, ?_⟩
    split at hmatch
    · exact absurd hmatch nofun
    · next opened outer groups hgroups =>
      exact ⟨opened, outer, groups, hgroups, (Except.error.inj hmatch).symm⟩

namespace Reaches

/-- A character that is not admitted comes behind the longest beginning. -/
theorem isFault_of_not_admits (h : Reaches limit u rest s) (hc : ¬ s.Admits c)
    (hfault : faultAfter u (c :: v) = some f) : IsFault (u ++ c :: v) f :=
  ⟨u, c :: v, rfl, isLongestViable_of_not_viable_concat h.viable
    (mt h.viable_concat_iff.mp hc), hfault⟩

/-- **The second of two stars** comes behind the longest beginning, which the
first one belongs to. -/
theorem isFault_of_stars (h : Reaches limit u ('*' :: '*' :: v) s)
    (hne : s.draft.factors ≠ []) :
    IsFault (u ++ '*' :: '*' :: v)
      ⟨.starWithoutFactor, s.position + 1⟩ := by
  obtain ⟨t, ts, hts⟩ := List.exists_cons_of_ne_nil hne
  -- by itself the first star is read, under some limit
  obtain ⟨limit', s', hstep⟩ : ∃ limit' s', s.step limit' '*' [] = .ok s' :=
    exists_step_of_admits ⟨t, ts, hts, h.canonical.1.star t ts hts rfl⟩
  have hs' : Reaches (max limit limit') (u ++ ['*']) [] s' :=
    .step ((h.mono (Nat.le_max_left ..)).ahead fun _ => rfl)
      (step_mono hstep (Nat.le_max_right ..))
  obtain ⟨_, _, -, -, -, rfl⟩ := star_eq_ok_iff.mp hstep
  have hfault := hs'.isFault_of_not_admits (c := '*') (v := v)
    (f := ⟨.starWithoutFactor, byteLength (u ++ ['*'])⟩) ?_ rfl
  · rw [byteLength_concat, ← h.position_eq] at hfault
    rwa [List.append_cons]
  · rintro ⟨_, _, hstar, hatom⟩
    rw [← (List.cons.inj hstar).1] at hatom
    exact absurd hatom nofun

/-- **A step that fails is at a fault of the text.** -/
theorem isFault_of_step (h : Reaches limit u (c :: v) s)
    (hstep : s.step limit c v = .error f) (hkind : f.kind ≠ .nestedTooDeep) :
    IsFault (u ++ c :: v) f := by
  obtain rfl | rfl | rfl | rfl | hc := sign_cases c
  · obtain ⟨hempty, rfl⟩ := bar_eq_error hstep hkind
    refine h.isFault_of_not_admits (fun hadmits => hadmits hempty) ?_
    rw [faultAfter, fault, h.position_eq]
  · exact absurd (openGroup_eq_error hstep) hkind
  · obtain ⟨hgroups, rfl⟩ | ⟨hgroups, hempty, rfl⟩ :=
      closeGroup_eq_error hstep hkind
    · refine h.isFault_of_not_admits (fun hadmits => hadmits.1 hgroups) ?_
      rw [faultAfter, if_pos (h.groups_eq_nil_iff.mp hgroups), fault,
        h.position_eq]
    · refine h.isFault_of_not_admits (fun hadmits => hadmits.2 hempty) ?_
      rw [faultAfter, if_neg (mt h.groups_eq_nil_iff.mpr hgroups), fault,
        h.position_eq]
  · obtain ⟨hempty, rfl⟩ | ⟨hne, hstar, rfl⟩ := star_eq_error hstep hkind
    · refine h.isFault_of_not_admits ?_ ?_
      · rintro ⟨t, ts, hts, -⟩
        rw [hempty] at hts
        exact absurd hts nofun
      · rw [faultAfter, fault, h.position_eq]
    · obtain ⟨v, rfl⟩ := List.head?_eq_some_iff.mp hstar
      exact h.isFault_of_stars hne
  · rw [step_literal hc] at hstep
    exact absurd hstep nofun

/-- **The end of a text fails at a fault of the text.** -/
theorem isFault_of_finish (h : Reaches limit u [] s)
    (hfinish : s.finish limit = .error f) (hkind : f.kind ≠ .nestedTooDeep) :
    IsFault u f := by
  refine ⟨u, [], (List.append_nil u).symm, isLongestViable_self h.viable, ?_⟩
  obtain ⟨hempty, rfl⟩ | ⟨hne, opened, outer, groups, hgroups, rfl⟩ :=
    finish_eq_error hfinish hkind
  · rw [faultAfter, if_pos (h.factors_eq_nil_iff.mp hempty), fault,
      h.position_eq]
  · rw [faultAfter, if_neg (mt h.factors_eq_nil_iff.mpr hne),
      ← h.map_groups_eq, hgroups]
    rfl

/-- **Reading fails at a fault of the text**, or refuses a nesting. -/
theorem isFault_of_run (h : Reaches limit u v s)
    (hrun : s.run limit v = .error f) (hkind : f.kind ≠ .nestedTooDeep) :
    IsFault (u ++ v) f := by
  induction v generalizing u s with
  | nil =>
    rw [List.append_nil]
    exact h.isFault_of_finish hrun hkind
  | cons c v ih =>
    cases hstep : s.step limit c v with
    | error f' =>
      have hsame : f' = f := by
        have : (s.step limit c v).bind (run limit v) = .error f := hrun
        rw [hstep] at this
        exact Except.error.inj this
      exact h.isFault_of_step (hsame ▸ hstep) hkind
    | ok s' =>
      rw [run_of_step hstep] at hrun
      rw [List.append_cons]
      exact ih (.step h hstep) hrun

end Reaches

end Reader

/-! ## The faults of patterns -/

/-- What is no pattern has a fault. -/
theorem exists_isFault {u : List Char} (h : ¬ IsPattern u) :
    ∃ f, IsFault u f := by
  cases hread : read u.length u with
  | ok t => exact absurd (isPattern_iff_exists_read.mpr ⟨_, t, hread⟩) h
  | error f =>
    -- the limit is as high as the text is long and is not what refuses it
    have hkind : f.kind ≠ .nestedTooDeep := by
      intro hkind
      obtain ⟨_, position⟩ := f
      obtain rfl := hkind
      exact read_refusedIn_empty (Nat.le_refl _) position hread
    exact ⟨f, Reader.Reaches.isFault_of_run (.start u) hread hkind⟩

/-- What is refused for another reason than its nesting is no pattern. -/
theorem not_isPattern_of_read {limit : Nat} {u : List Char} {f : PatternFault}
    (h : read limit u = .error f) (hkind : f.kind ≠ .nestedTooDeep) :
    ¬ IsPattern u := by
  intro hpattern
  obtain ⟨limit', t, hread⟩ := isPattern_iff_exists_read.mp hpattern
  -- the higher of the two limits reads the pattern and fails as the first one
  have hhigh : read (max limit limit') u = .ok t := by
    obtain heq | ⟨_, herror, -⟩ :=
      Reader.run_cutsOff (Nat.le_max_right limit limit') .start u
    · exact heq.symm.trans hread
    · exact absurd (herror.symm.trans hread) nofun
  obtain heq | ⟨_, herror, -⟩ :=
    Reader.run_cutsOff (Nat.le_max_left limit limit') .start u
  · exact absurd ((h.symm.trans heq).trans hhigh) nofun
  · exact hkind (Except.error.inj (h.symm.trans herror) ▸ rfl)

/-- **Kind and place of every fault.** Under any limit, what fails for
another reason than its nesting is no pattern, and it fails with the fault that
the grammar finds behind its longest beginning. What is no pattern has one such
fault, and fails with it or for its nesting. -/
theorem ofPattern_error_at_longest_viable (limit : Nat) (pattern : String) :
    (∀ f, ofPattern limit pattern = .error f → f.kind ≠ .nestedTooDeep →
      ¬ IsPattern pattern.toList ∧ IsFault pattern.toList f) ∧
    (¬ IsPattern pattern.toList → ∃ f,
      (∀ g, IsFault pattern.toList g ↔ g = f) ∧
      (ofPattern limit pattern = .error f ∨
        ∃ q, ofPattern limit pattern = .error ⟨.nestedTooDeep, q⟩)) := by
  have hfault : ∀ f, ofPattern limit pattern = .error f →
      f.kind ≠ .nestedTooDeep → IsFault pattern.toList f := fun f h hkind =>
    Reader.Reaches.isFault_of_run (.start _) h hkind
  refine ⟨fun f h hkind => ⟨not_isPattern_of_read h hkind, hfault f h hkind⟩,
    fun hpattern => ?_⟩
  obtain ⟨f, hf⟩ := exists_isFault hpattern
  refine ⟨f, fun g => ⟨fun hg => hg.unique hf, fun hg => hg ▸ hf⟩, ?_⟩
  cases hread : ofPattern limit pattern with
  | ok t => exact absurd (isPattern_iff_exists_read.mpr ⟨limit, t, hread⟩) hpattern
  | error g =>
    by_cases hkind : g.kind = .nestedTooDeep
    · exact Or.inr ⟨g.position, by rw [← hkind]⟩
    · rw [(hfault g hread hkind).unique hf]
      exact Or.inl rfl

/-- Five bytes begin a pattern before the group closes on an alternative that
is still empty. The first character takes two of them. -/
theorem ofPattern_error_emptyAlternative :
    ofPattern 250 "é(b|)" = .error ⟨.missingFactor, 5⟩ ∧
    (¬ IsPattern "é(b|)".toList ∧
      IsFault "é(b|)".toList ⟨.missingFactor, 5⟩) ∧
    ∃ f, (∀ g, IsFault "é(b|)".toList g ↔ g = f) ∧
      (ofPattern 250 "é(b|)" = .error f ∨
        ∃ q, ofPattern 250 "é(b|)" = .error ⟨.nestedTooDeep, q⟩) := by
  have hread : ofPattern 250 "é(b|)" = .error ⟨.missingFactor, 5⟩ := by rfl
  obtain ⟨hfault, hpattern⟩ := ofPattern_error_at_longest_viable 250 "é(b|)"
  have hfirst := hfault ⟨.missingFactor, 5⟩ hread (by decide)
  exact ⟨hread, hfirst, hpattern hfirst.1⟩

end Recognizer.Regex
