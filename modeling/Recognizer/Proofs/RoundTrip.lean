import Recognizer.Proofs.Reader

/-!
# Reading and printing are inverse

The other direction: a canonical tree, printed, is read as itself. A factor
in the pattern does nothing but add itself to the draft that is being read
(`Reader.Takes`), and this is what the induction over trees shows, for every
factor that a tree consists of. Several factors in a row and several
alternatives with bars between them then leave a draft that joins to the
tree they make up.

Two counts keep clear of the limit together. The groups open around a tree
and the height of the tree itself never exceed the limit of the whole, for
entering a group moves one level from the height to the groups.
-/

namespace Recognizer.Regex

/-! ## What a tree consists of -/

/-- The items of a sequence; any other tree is its only factor. -/
def factors : Regex Char → List (Regex Char)
  | sequence ts => ts
  | t => [t]

/-- The items of a choice; any other tree is its only alternative. -/
def alternatives : Regex Char → List (Regex Char)
  | choice ts => ts
  | t => [t]

theorem factors_of_isFactor {t : Regex Char} (h : t.isFactor = true) :
    t.factors = [t] := by
  cases t <;> simp_all [isFactor, factors]

theorem alternatives_of_not_isChoice {t : Regex Char}
    (h : t.isChoice = false) : t.alternatives = [t] := by
  cases t <;> simp_all [isChoice, alternatives]

/-- No factor is higher than the tree. -/
theorem height_le_of_mem_factors {t u : Regex Char} (h : u ∈ t.factors) :
    u.height ≤ t.height := by
  cases t with
  | sequence ts => exact Nat.le_succ_of_le (height_le_heightOfItems h)
  | _ => exact Nat.le_of_eq (congrArg height (List.mem_singleton.mp h))

/-- No alternative is higher than the tree. -/
theorem height_le_of_mem_alternatives {t u : Regex Char}
    (h : u ∈ t.alternatives) : u.height ≤ t.height := by
  cases t with
  | choice ts => exact Nat.le_succ_of_le (height_le_heightOfItems h)
  | _ => exact Nat.le_of_eq (congrArg height (List.mem_singleton.mp h))

/-- Two items or more are put under a node of their own. -/
theorem join_of_two_le {node : List (Regex Char) → Regex Char}
    {ts : List (Regex Char)} (h : 2 ≤ ts.length) : join node ts = node ts :=
  join_of_length_ne_one (by omega)

namespace Canonical

variable {t u : Regex Char}

/-- **A canonical tree joins its alternatives.** -/
theorem join_alternatives (ht : t.Canonical) :
    join .choice t.alternatives = t := by
  cases ht with
  | choice hlen _ _ => exact join_of_two_le hlen
  | _ => rfl

/-- **A canonical tree joins its factors**, if it is no choice. -/
theorem join_factors (ht : t.Canonical) (hchoice : t.isChoice = false) :
    join .sequence t.factors = t := by
  cases ht with
  | sequence hlen _ _ => exact join_of_two_le hlen
  | choice => exact absurd hchoice nofun
  | _ => rfl

theorem alternatives_ne_nil (ht : t.Canonical) : t.alternatives ≠ [] := by
  cases ht with
  | choice hlen _ _ => exact ne_nil_of_two_le hlen
  | _ => exact List.cons_ne_nil _ _

theorem factors_ne_nil (ht : t.Canonical) : t.factors ≠ [] := by
  cases ht with
  | sequence hlen _ _ => exact ne_nil_of_two_le hlen
  | _ => exact List.cons_ne_nil _ _

/-- The alternatives are canonical, no choices and no higher. -/
theorem of_mem_alternatives (ht : t.Canonical) (hu : u ∈ t.alternatives) :
    u.Canonical ∧ u.isChoice = false ∧ u.height ≤ t.height := by
  have hheight := height_le_of_mem_alternatives hu
  by_cases hchoice : t.isChoice = false
  · rw [alternatives_of_not_isChoice hchoice, List.mem_singleton] at hu
    exact ⟨hu ▸ ht, hu ▸ hchoice, hheight⟩
  · cases ht with
    | choice _ hitem hitems => exact ⟨hitems u hu, hitem u hu, hheight⟩
    | _ => exact absurd rfl hchoice

/-- The factors are canonical, may stand in a sequence and are no higher. -/
theorem of_mem_factors (ht : t.Canonical) (hchoice : t.isChoice = false)
    (hu : u ∈ t.factors) :
    u.Canonical ∧ u.isFactor = true ∧ u.height ≤ t.height := by
  have hheight := height_le_of_mem_factors hu
  by_cases hfactor : t.isFactor = true
  · rw [factors_of_isFactor hfactor, List.mem_singleton] at hu
    exact ⟨hu ▸ ht, hu ▸ hfactor, hheight⟩
  · cases ht with
    | sequence _ hitem hitems => exact ⟨hitems u hu, hitem u hu, hheight⟩
    | choice => exact absurd hchoice nofun
    | _ => exact absurd rfl hfactor

/-- A draft with the factors of a tree is at that tree. -/
theorem alternative_factors (ht : t.Canonical) (hchoice : t.isChoice = false)
    (us : List (Regex Char)) :
    Draft.alternative ⟨us, t.factors.reverse⟩ = t := by
  rw [Draft.alternative, List.reverse_reverse, ht.join_factors hchoice]

/-- A tree that is no choice prints as its factors. -/
theorem render_eq_flatMap_factors (ht : t.Canonical)
    (hchoice : t.isChoice = false) : t.render = t.factors.flatMap render := by
  have hfactor : ∀ u ∈ t.factors, u.isFactor = true := fun u hu =>
    (ht.of_mem_factors hchoice hu).2.1
  rw [← render_join_sequence hfactor, ht.join_factors hchoice]

/-- **No factor begins with a star.** -/
theorem head?_render_ne (ht : t.Canonical) (hfactor : t.isFactor = true)
    (rest : List Char) : (t.render ++ rest).head? ≠ some '*' := by
  have hatom : ∀ {u : Regex Char}, u.Canonical → u.isAtom = true →
      ∀ cs, (u.render ++ cs).head? ≠ some '*' := by
    intro u hu hatom cs
    cases hu with
    | literal hc => simp_all [render, SymbolText.plain, isSign]
    | group => simp [render, parenthesize]
    | _ => simp [isAtom] at hatom
  cases ht with
  | star hinner hcanonical =>
    rw [render, if_pos hinner, List.append_assoc]
    exact hatom hcanonical hinner _
  | sequence => simp [isFactor] at hfactor
  | choice => simp [isFactor] at hfactor
  | literal hc => exact hatom (.literal hc) rfl rest
  | group hcanonical => exact hatom (.group hcanonical) rfl rest

end Canonical

/-! ## Reading a factor -/

namespace Reader

variable {limit : Nat} {r : Reader} {rest : List Char}

/-- **A factor adds itself to the draft**, wherever there is room for it and
no star follows that would take hold of it. -/
def Takes (limit : Nat) (t : Regex Char) : Prop :=
  ∀ (r : Reader) (rest : List Char), r.groups.length + t.height ≤ limit →
    (t.isAtom = false → rest.head? ≠ some '*') →
    ∃ position, r.run limit (t.render ++ rest)
      = Reader.run limit rest ⟨position, r.draft.push t, r.groups⟩

/-- Everything a tree consists of adds itself to the draft. -/
def TakesFactors (limit : Nat) (t : Regex Char) : Prop :=
  ∀ u ∈ t.alternatives, ∀ v ∈ u.factors, Takes limit v

/-- A factor consists of itself. -/
theorem takesFactors_iff_takes {t : Regex Char} (hfactor : t.isFactor = true) :
    TakesFactors limit t ↔ Takes limit t := by
  unfold TakesFactors
  rw [alternatives_of_not_isChoice (isChoice_of_isFactor hfactor)]
  simp [factors_of_isFactor hfactor]

/-- Factors in a row add themselves one by one. -/
theorem exists_run_factors {ts : List (Regex Char)}
    (hts : ∀ t ∈ ts, t.Canonical ∧ t.isFactor = true ∧ Takes limit t ∧
      r.groups.length + t.height ≤ limit)
    (hrest : rest.head? ≠ some '*') :
    ∃ position, r.run limit (ts.flatMap render ++ rest)
      = Reader.run limit rest
        ⟨position, ⟨r.draft.alternatives, ts.reverse ++ r.draft.factors⟩,
          r.groups⟩ := by
  induction ts generalizing r with
  | nil => exact ⟨r.position, rfl⟩
  | cons t ts ih =>
    obtain ⟨-, -, htakes, hfit⟩ := hts t List.mem_cons_self
    -- what comes next begins another factor or is the rest
    have hnext : (ts.flatMap render ++ rest).head? ≠ some '*' := by
      cases ts with
      | nil => exact hrest
      | cons u us =>
        obtain ⟨hu, hfactor, -⟩ := hts u (by simp)
        rw [List.flatMap_cons, List.append_assoc]
        exact hu.head?_render_ne hfactor _
    obtain ⟨position, hrun⟩ := htakes r _ hfit fun _ => hnext
    obtain ⟨position', hrun'⟩ :=
      ih (r := ⟨position, r.draft.push t, r.groups⟩) fun u hu =>
        hts u (List.mem_cons_of_mem _ hu)
    refine ⟨position', ?_⟩
    rw [List.flatMap_cons, List.append_assoc, hrun, hrun', List.reverse_cons,
      List.append_assoc]
    rfl

/-! ## Reading alternatives -/

/-- An alternative leaves its factors behind. -/
theorem exists_run_alternative {t : Regex Char} (ht : t.Canonical)
    (hchoice : t.isChoice = false) (htakes : ∀ u ∈ t.factors, Takes limit u)
    (hfit : r.groups.length + t.height ≤ limit) (hempty : r.draft.factors = [])
    (hrest : rest.head? ≠ some '*') :
    ∃ position, r.run limit (t.render ++ rest) = Reader.run limit rest
      ⟨position, ⟨r.draft.alternatives, t.factors.reverse⟩, r.groups⟩ := by
  have hts : ∀ u ∈ t.factors, u.Canonical ∧ u.isFactor = true ∧
      Takes limit u ∧ r.groups.length + u.height ≤ limit := by
    intro u hu
    obtain ⟨hcanonical, hfactor, hheight⟩ := ht.of_mem_factors hchoice hu
    exact ⟨hcanonical, hfactor, htakes u hu,
      Nat.le_trans (Nat.add_le_add_left hheight _) hfit⟩
  rw [ht.render_eq_flatMap_factors hchoice]
  obtain ⟨position, hrun⟩ := exists_run_factors hts hrest
  exact ⟨position, by rw [hrun, hempty, List.append_nil]⟩

/-- **Alternatives with bars between them** are kept in order, the factors of
the last one still apart. -/
theorem exists_run_alternatives {ts : List (Regex Char)} {t : Regex Char}
    (hts : ∀ u ∈ ts ++ [t], u.Canonical ∧ u.isChoice = false ∧
      (∀ v ∈ u.factors, Takes limit v) ∧
      r.groups.length + u.height ≤ limit)
    (hempty : r.draft.factors = []) (hrest : rest.head? ≠ some '*') :
    ∃ position, r.run limit (renderBarred ts ++ t.render ++ rest)
      = Reader.run limit rest ⟨position,
        ⟨ts.reverse ++ r.draft.alternatives, t.factors.reverse⟩,
          r.groups⟩ := by
  induction ts generalizing r with
  | nil =>
    obtain ⟨ht, hchoice, htakes, hfit⟩ := hts t (by simp)
    exact exists_run_alternative ht hchoice htakes hfit hempty hrest
  | cons u us ih =>
    obtain ⟨hu, hchoice, htakes, hfit⟩ := hts u (by simp)
    have hnext : ('|' :: (renderBarred us ++ t.render ++ rest)).head?
        ≠ some '*' := by simp
    obtain ⟨position, hrun⟩ :=
      exists_run_alternative hu hchoice htakes hfit hempty hnext
    obtain ⟨position', hrun'⟩ := ih (r := ⟨position + 1,
      ⟨u :: r.draft.alternatives, []⟩, r.groups⟩)
      (fun v hv => hts v (List.mem_cons_of_mem _ hv)) rfl
    refine ⟨position', ?_⟩
    calc r.run limit (renderBarred (u :: us) ++ t.render ++ rest)
        = r.run limit
            (u.render ++ '|' :: (renderBarred us ++ t.render ++ rest)) := by
          simp [renderBarred]
      _ = Reader.run limit ('|' :: (renderBarred us ++ t.render ++ rest))
            ⟨position, ⟨r.draft.alternatives, u.factors.reverse⟩, r.groups⟩ :=
          hrun
      _ = Reader.run limit (renderBarred us ++ t.render ++ rest)
            ⟨position + 1, ⟨u :: r.draft.alternatives, []⟩, r.groups⟩ :=
          run_of_step (by
            rw [step_bar, bar_eq_ok_iff, hu.alternative_factors hchoice]
            exact ⟨List.reverse_ne_nil_iff.mpr hu.factors_ne_nil,
              by omega, rfl⟩)
      _ = Reader.run limit rest ⟨position',
            ⟨us.reverse ++ u :: r.draft.alternatives, t.factors.reverse⟩,
              r.groups⟩ := hrun'
      _ = _ := by
          rw [List.reverse_cons, List.append_assoc, List.singleton_append]

/-- **A tree in a draft of its own** is what the draft joins to. -/
theorem exists_run_choice {t : Regex Char} (ht : t.Canonical)
    (htakes : TakesFactors limit t)
    (hfit : r.groups.length + t.height ≤ limit) (hempty : r.draft = .empty)
    (hrest : rest.head? ≠ some '*') :
    ∃ position d, r.run limit (t.render ++ rest)
        = Reader.run limit rest ⟨position, d, r.groups⟩ ∧
      d.factors ≠ [] ∧ d.choice = t := by
  obtain ⟨us, u, hlist⟩ : ∃ us u, t.alternatives = us ++ [u] :=
    ⟨_, _, (List.dropLast_append_getLast ht.alternatives_ne_nil).symm⟩
  have hts : ∀ v ∈ us ++ [u], v.Canonical ∧ v.isChoice = false ∧
      (∀ x ∈ v.factors, Takes limit x) ∧
      r.groups.length + v.height ≤ limit := by
    intro v hv
    rw [← hlist] at hv
    obtain ⟨hcanonical, hchoice, hheight⟩ := ht.of_mem_alternatives hv
    exact ⟨hcanonical, hchoice, htakes v hv,
      Nat.le_trans (Nat.add_le_add_left hheight _) hfit⟩
  obtain ⟨hu, hchoice, -⟩ := hts u (by simp)
  obtain ⟨position, hrun⟩ :=
    exists_run_alternatives hts (by rw [hempty]; rfl) hrest
  refine ⟨position, ⟨us.reverse, u.factors.reverse⟩, ?_,
    List.reverse_ne_nil_iff.mpr hu.factors_ne_nil, ?_⟩
  · rw [← ht.join_alternatives, hlist, render_join_choice, hrun, hempty]
    simp [Draft.empty]
  · rw [Draft.choice, hu.alternative_factors hchoice, List.reverse_cons,
      List.reverse_reverse, ← hlist, ht.join_alternatives]

/-! ## Every factor is read -/

theorem takes_literal {c : Char} (hc : isSign c = false) :
    Takes limit (.literal c) :=
  fun r _ _ _ => ⟨r.position + c.utf8Size, run_of_step (step_literal hc)⟩

theorem takes_star {t : Regex Char} (hatom : t.isAtom = true)
    (ht : Takes limit t) : Takes limit (.star t) := by
  intro r rest hfit hrest
  have hinner : r.groups.length + t.height ≤ limit :=
    Nat.le_trans (Nat.le_succ _) hfit
  -- a star may follow the operand, which is an atom
  obtain ⟨position, hrun⟩ := ht r ('*' :: rest) hinner
    fun h => absurd hatom (by simp [h])
  refine ⟨position + 1, ?_⟩
  rw [render, if_pos hatom, List.append_assoc]
  refine hrun.trans (run_of_step ?_)
  rw [step_star, star_eq_ok_iff]
  exact ⟨t, r.draft.factors, rfl, hrest rfl,
    Nat.le_trans (Nat.le_add_left ..) hfit, rfl⟩

theorem takes_group {t : Regex Char} (ht : t.Canonical)
    (htakes : TakesFactors limit t) : Takes limit (.group t) := by
  intro r rest hfit _
  -- one more group is open around a tree one level lower
  have hfit' : r.groups.length + 1 + t.height ≤ limit := by
    rw [height] at hfit
    omega
  have hopen : r.step limit '(' (t.render ++ ([')'] ++ rest))
      = .ok ⟨r.position + 1, .empty, (r.position, r.draft) :: r.groups⟩ := by
    rw [step_openGroup, openGroup_eq_ok_iff]
    exact ⟨by omega, rfl⟩
  have hnext : (')' :: rest).head? ≠ some '*' := by simp
  obtain ⟨position, d, hrun, hne, rfl⟩ := exists_run_choice
    (r := ⟨r.position + 1, .empty, (r.position, r.draft) :: r.groups⟩)
    ht htakes hfit' rfl hnext
  refine ⟨position + 1, ?_⟩
  rw [render, parenthesize, List.cons_append, List.append_assoc,
    run_of_step hopen]
  refine hrun.trans (run_of_step ?_)
  rw [step_closeGroup, closeGroup_eq_ok_iff]
  exact ⟨r.position, r.draft, r.groups, rfl, hne,
    Nat.le_trans (Nat.le_add_left ..) hfit, rfl⟩

/-- **Every factor of a canonical tree is read.** -/
theorem takesFactors_of_canonical {t : Regex Char} (ht : t.Canonical) :
    TakesFactors limit t := by
  induction ht with
  | literal hc => exact (takesFactors_iff_takes rfl).mpr (takes_literal hc)
  | sequence _ hfactor _ ih =>
    intro u hu v hv
    rw [List.mem_singleton.mp hu] at hv
    exact (takesFactors_iff_takes (hfactor v hv)).mp (ih v hv)
  | choice _ hchoice _ ih =>
    -- an alternative is its own only one, so its factors are among the tree's
    intro u hu v hv
    refine ih u hu u ?_ v hv
    rw [alternatives_of_not_isChoice (hchoice u hu)]
    exact List.mem_cons_self
  | star hatom _ ih =>
    have hinner := (takesFactors_iff_takes (isFactor_of_isAtom hatom)).mp ih
    exact (takesFactors_iff_takes rfl).mpr (takes_star hatom hinner)
  | group ht ih => exact (takesFactors_iff_takes rfl).mpr (takes_group ht ih)

end Reader

/-- What is read from a pattern is canonical, no higher than the limit, and
prints to the pattern. -/
theorem canonical_of_ofPattern {limit : Nat} {pattern : String}
    {t : Regex Char} (h : ofPattern limit pattern = .ok t) :
    t.Canonical ∧ t.height ≤ limit ∧ t.toPattern = pattern := by
  obtain ⟨ht, hheight, hrender⟩ := (Reader.canonical_start _).run h
  refine ⟨ht, hheight, ?_⟩
  rw [toPattern, hrender]
  exact String.ofList_toList

/-- A canonical tree that is no higher than the limit is read from its
pattern. -/
theorem ofPattern_toPattern {limit : Nat} {t : Regex Char} (ht : t.Canonical)
    (hheight : t.height ≤ limit) : ofPattern limit t.toPattern = .ok t := by
  have hfit : Reader.start.groups.length + t.height ≤ limit := by
    rwa [show Reader.start.groups.length = 0 from rfl, Nat.zero_add]
  have hend : ([] : List Char).head? ≠ some '*' := by simp
  obtain ⟨position, d, hrun, hne, hd⟩ := Reader.exists_run_choice ht
    (Reader.takesFactors_of_canonical ht) hfit rfl hend
  show Reader.start.run limit (String.ofList t.render).toList = _
  rw [String.toList_ofList, ← List.append_nil t.render, hrun]
  exact Reader.finish_eq_ok_iff.mpr ⟨hne, rfl, hd ▸ hheight, hd.symm⟩

/-- **Reading is the inverse of printing**: a pattern is read as a tree
exactly when the tree is canonical, no higher than the limit, and prints to
the pattern. -/
theorem ofPattern_eq_ok_iff {limit : Nat} {pattern : String}
    {t : Regex Char} :
    ofPattern limit pattern = .ok t ↔
      t.Canonical ∧ t.height ≤ limit ∧ t.toPattern = pattern := by
  refine ⟨canonical_of_ofPattern, fun ⟨ht, hheight, hpattern⟩ => ?_⟩
  rw [← hpattern]
  exact ofPattern_toPattern ht hheight

end Recognizer.Regex
