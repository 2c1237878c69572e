import Mathlib.Order.Interval.Set.Basic
import Recognizer.Proofs.Reader

/-!
# The limit on nesting only cuts off

Two limits do not read a pattern in two ways. Whatever the lower one lets
pass is read as under the higher one, and what it does not let pass it refuses
as nested too deeply, no later than the higher one would (`CutsOff`).

That is a matter of one step, and of places that only move forward. A step does
the same under either limit or is refused under the lower one
(`Reader.step_cutsOff`). The place that is named lies between the beginning and
the end of the character (`Reader.step_refusedIn`), and so whatever is refused
further on is refused there or behind (`Reader.run_refusedIn`).

A limit as high as the text is long refuses nothing at all
(`read_refusedIn_empty`), as a tree is always lower than its text is long.
-/

namespace Recognizer.Regex

/-! ## Results with refusals -/

/-- **Where a nesting is refused**, if that is what the result is. -/
def RefusedIn {β : Type} (places : Set Nat) (x : Except PatternFault β) :
    Prop :=
  ∀ q, x = .error ⟨.nestedTooDeep, q⟩ → q ∈ places

/-- **The same result, or a nesting refused no later.** -/
def CutsOff {β : Type} (x y : Except PatternFault β) : Prop :=
  x = y ∨ ∃ p, x = .error ⟨.nestedTooDeep, p⟩ ∧ RefusedIn (Set.Ici p) y

section Results

variable {β γ : Type} {x y : Except PatternFault β}
  {f g : β → Except PatternFault γ} {places places' : Set Nat}

theorem refusedIn_ok (places : Set Nat) (b : β) :
    RefusedIn places (.ok b : Except PatternFault β) := nofun

theorem RefusedIn.mono (h : RefusedIn places x) (hsub : places ⊆ places') :
    RefusedIn places' x := fun q hq => hsub (h q hq)

theorem RefusedIn.bind (hx : RefusedIn places x)
    (hf : ∀ b, x = .ok b → RefusedIn places (f b)) :
    RefusedIn places (x.bind f) := by
  cases x with
  | error fault => exact fun q hq => hx q (by rw [Except.error.inj hq])
  | ok b => exact hf b rfl

theorem CutsOff.refl (x : Except PatternFault β) : CutsOff x x := Or.inl rfl

/-- What is not refused is not cut off. -/
theorem CutsOff.eq_of_refusedIn_empty (h : CutsOff x y)
    (hx : RefusedIn ∅ x) : x = y := by
  rcases h with rfl | ⟨p, hp, -⟩
  · rfl
  · exact (hx p hp).elim

/-- What is refused is refused no later where it is cut off. -/
theorem CutsOff.exists_le {q : Nat} (h : CutsOff x y)
    (hy : y = .error ⟨.nestedTooDeep, q⟩) :
    ∃ p ≤ q, x = .error ⟨.nestedTooDeep, p⟩ := by
  rcases h with rfl | ⟨p, hp, hlate⟩
  · exact ⟨q, Nat.le_refl q, hy⟩
  · exact ⟨p, hlate q hy, hp⟩

/-- **What follows a part that is cut off is cut off with it**, provided that
it refuses nothing before the place where the part is refused. -/
theorem CutsOff.bind (hxy : CutsOff x y)
    (hfg : ∀ b, x = .ok b → CutsOff (f b) (g b))
    (hlate : ∀ p b, x = .error ⟨.nestedTooDeep, p⟩ → y = .ok b →
      RefusedIn (Set.Ici p) (g b)) : CutsOff (x.bind f) (y.bind g) := by
  rcases hxy with rfl | ⟨p, rfl, hy⟩
  · cases x with
    | error fault => exact .refl _
    | ok b => exact hfg b rfl
  · exact Or.inr ⟨p, rfl, hy.bind fun b hb => hlate p b rfl hb⟩

end Results

namespace Reader

variable {limit limit' position : Nat} {r s : Reader} {c : Char}
  {rest : List Char} {t : Regex Char}

/-! ## Places -/

/-- **A step moves on by the bytes of its character.** -/
theorem position_of_step (h : r.step limit c rest = .ok s) :
    s.position = r.position + c.utf8Size := by
  obtain ⟨rfl, h⟩ | ⟨rfl, h⟩ | ⟨rfl, h⟩ | ⟨rfl, h⟩ | ⟨hc, rfl⟩ := step_cases h
  · obtain ⟨-, -, rfl⟩ := bar_eq_ok_iff.mp h
    rfl
  · obtain ⟨-, rfl⟩ := openGroup_eq_ok_iff.mp h
    rfl
  · obtain ⟨_, _, _, -, -, -, rfl⟩ := closeGroup_eq_ok_iff.mp h
    rfl
  · obtain ⟨_, _, -, -, -, rfl⟩ := star_eq_ok_iff.mp h
    rfl
  · rfl

theorem checkHeight_refusedIn (limit position : Nat) (t : Regex Char) :
    RefusedIn {position} (checkHeight limit position t) := by
  unfold checkHeight
  split
  · intro q hq
    cases hq
    rfl
  · exact refusedIn_ok _ t

/-- **A step refuses a nesting at its character**, before or behind it. -/
theorem step_refusedIn (limit : Nat) (r : Reader) (c : Char)
    (rest : List Char) :
    RefusedIn (Set.Icc r.position (r.position + c.utf8Size))
      (r.step limit c rest) := by
  have hbefore : ∀ n, {r.position} ⊆ Set.Icc r.position (r.position + n) :=
    fun n => Set.singleton_subset_iff.mpr ⟨Nat.le_refl _, Nat.le_add_right ..⟩
  have hbehind : ∀ n, {r.position + n} ⊆ Set.Icc r.position (r.position + n) :=
    fun n => Set.singleton_subset_iff.mpr ⟨Nat.le_add_right .., Nat.le_refl _⟩
  obtain rfl | rfl | rfl | rfl | hc := sign_cases c
  · rw [step_bar, bar]
    split
    · exact nofun
    · exact ((checkHeight_refusedIn _ _ _).mono (hbefore 1)).bind fun _ _ =>
        refusedIn_ok _ _
  · rw [step_openGroup, openGroup]
    split
    · intro q hq
      cases hq
      exact hbefore 1 rfl
    · exact refusedIn_ok _ _
  · rw [step_closeGroup, closeGroup]
    split
    · exact nofun
    · split
      · exact nofun
      · refine ((checkHeight_refusedIn _ _ _).mono (hbefore 1)).bind fun _ _ => ?_
        exact ((checkHeight_refusedIn _ _ _).mono (hbehind 1)).bind fun _ _ =>
          refusedIn_ok _ _
  · rw [step_star, star]
    split
    · exact nofun
    · split
      · exact nofun
      · exact ((checkHeight_refusedIn _ _ _).mono (hbehind 1)).bind fun _ _ =>
          refusedIn_ok _ _
  · rw [step_literal hc]
    exact refusedIn_ok _ _

theorem finish_refusedIn (limit : Nat) (r : Reader) :
    RefusedIn {r.position} (r.finish limit) := by
  unfold finish
  split
  · exact nofun
  · refine (checkHeight_refusedIn _ _ _).bind fun t _ => ?_
    split
    · exact refusedIn_ok _ t
    · exact nofun

/-- **A nesting is refused no earlier than where reading goes on.** -/
theorem run_refusedIn (limit : Nat) (r : Reader) (cs : List Char) :
    RefusedIn (Set.Ici r.position) (r.run limit cs) := by
  induction cs generalizing r with
  | nil =>
    exact (finish_refusedIn limit r).mono
      (Set.singleton_subset_iff.mpr Set.self_mem_Ici)
  | cons c rest ih =>
    refine ((step_refusedIn limit r c rest).mono Set.Icc_subset_Ici_self).bind
      fun s hs => (ih s).mono (Set.Ici_subset_Ici.mpr ?_)
    rw [position_of_step hs]
    exact Nat.le_add_right ..

/-! ## Two limits -/

theorem checkHeight_cutsOff (h : limit ≤ limit') (position : Nat)
    (t : Regex Char) :
    CutsOff (checkHeight limit position t) (checkHeight limit' position t) := by
  by_cases hlow : limit < t.height
  · refine Or.inr ⟨position, if_pos hlow, ?_⟩
    exact (checkHeight_refusedIn limit' position t).mono
      (Set.singleton_subset_iff.mpr Set.self_mem_Ici)
  · have hhigh : ¬ limit' < t.height := fun hhigh =>
      hlow (Nat.lt_of_le_of_lt h hhigh)
    exact Or.inl ((if_neg hlow).trans (if_neg hhigh).symm)

/-- A check that is cut off cuts off what is done with the tree, if that
refuses nothing before the place of the check. -/
theorem checkHeight_bind_cutsOff {β : Type} (h : limit ≤ limit')
    {f g : Regex Char → Except PatternFault β} (hfg : CutsOff (f t) (g t))
    (hlate : RefusedIn (Set.Ici position) (g t)) :
    CutsOff ((checkHeight limit position t).bind f)
      ((checkHeight limit' position t).bind g) := by
  have hok : ∀ {limit b}, checkHeight limit position t = .ok b → b = t := by
    intro limit b hb
    unfold checkHeight at hb
    split at hb
    · exact absurd hb nofun
    · exact (Except.ok.inj hb).symm
  refine (checkHeight_cutsOff h position t).bind (fun b hb => ?_)
    fun p b hp hb => ?_
  · rw [hok hb]
    exact hfg
  · rw [hok hb, checkHeight_refusedIn limit position t p hp]
    exact hlate

/-- **A step does the same under a higher limit**, or is refused. -/
theorem step_cutsOff (h : limit ≤ limit') (r : Reader) (c : Char)
    (rest : List Char) :
    CutsOff (r.step limit c rest) (r.step limit' c rest) := by
  obtain rfl | rfl | rfl | rfl | hc := sign_cases c
  · rw [step_bar, step_bar, bar, bar]
    split
    · exact .refl _
    · exact checkHeight_bind_cutsOff h (.refl _) (refusedIn_ok _ _)
  · rw [step_openGroup, step_openGroup, openGroup, openGroup]
    by_cases hlow : limit ≤ r.groups.length
    · refine Or.inr ⟨r.position, if_pos hlow, ?_⟩
      split
      · intro q hq
        cases hq
        exact Set.self_mem_Ici
      · exact refusedIn_ok _ _
    · have hhigh : ¬ limit' ≤ r.groups.length := fun hhigh =>
        hlow (Nat.le_trans h hhigh)
      rw [if_neg hlow, if_neg hhigh]
      exact .refl _
  · rw [step_closeGroup, step_closeGroup, closeGroup, closeGroup]
    split
    · exact .refl _
    · split
      · exact .refl _
      · -- the group is checked behind the place where its inside is checked
        refine checkHeight_bind_cutsOff h
          (checkHeight_bind_cutsOff h (.refl _) (refusedIn_ok _ _)) ?_
        refine RefusedIn.bind ((checkHeight_refusedIn _ _ _).mono ?_) fun _ _ =>
          refusedIn_ok _ _
        exact Set.singleton_subset_iff.mpr (Nat.le_add_right ..)
  · rw [step_star, step_star, star, star]
    split
    · exact .refl _
    · split
      · exact .refl _
      · exact checkHeight_bind_cutsOff h (.refl _) (refusedIn_ok _ _)
  · rw [step_literal hc, step_literal hc]
    exact .refl _

theorem finish_cutsOff (h : limit ≤ limit') (r : Reader) :
    CutsOff (r.finish limit) (r.finish limit') := by
  unfold finish
  split
  · exact .refl _
  · refine checkHeight_bind_cutsOff h (.refl _) ?_
    split
    · exact refusedIn_ok _ _
    · exact nofun

/-- **Reading does the same under a higher limit**, or is refused before the
higher limit refuses a nesting. -/
theorem run_cutsOff (h : limit ≤ limit') (r : Reader) (cs : List Char) :
    CutsOff (r.run limit cs) (r.run limit' cs) := by
  induction cs generalizing r with
  | nil => exact finish_cutsOff h r
  | cons c rest ih =>
    refine (step_cutsOff h r c rest).bind (fun s _ => ih s) fun p s hp hs => ?_
    -- the step is refused before its character ends, and reading goes on there
    have hplace := (step_refusedIn limit r c rest p hp).2
    rw [← position_of_step hs] at hplace
    exact (run_refusedIn limit' s rest).mono (Set.Ici_subset_Ici.mpr hplace)

end Reader

/-- **A lower limit only cuts off**: a pattern has the same tree or the same
fault under either limit, or the lower one refuses a nesting, no later than
the higher one. -/
theorem ofPattern_cutsOff {limit limit' : Nat} (h : limit ≤ limit')
    (pattern : String) :
    CutsOff (ofPattern limit pattern) (ofPattern limit' pattern) :=
  Reader.run_cutsOff h Reader.start pattern.toList

/-! ## Room enough

A tree is lower than its pattern is long, and every open group has its
parenthesis in the text. A limit as high as the pattern is long therefore
refuses nothing. -/

/-- Items that are lower than their texts are long, with a character more for
each of them. -/
theorem heightOfItems_add_length_le {ts : List (Regex Char)}
    (h : ∀ t ∈ ts, t.height < t.render.length) :
    heightOfItems ts + ts.length ≤ (ts.flatMap render).length := by
  induction ts with
  | nil => exact Nat.le_refl _
  | cons t ts ih =>
    obtain ⟨ht, hts⟩ := List.forall_mem_cons.mp h
    have := ih hts
    rw [heightOfItems, List.length_cons, List.flatMap_cons, List.length_append]
    omega

theorem heightOfItems_add_length_le_renderAlternatives
    {ts : List (Regex Char)} (h : ∀ t ∈ ts, t.height < t.render.length) :
    heightOfItems ts + ts.length ≤ (renderAlternatives ts).length := by
  induction ts with
  | nil => exact Nat.le_refl _
  | cons t ts ih =>
    obtain ⟨ht, hts⟩ := List.forall_mem_cons.mp h
    have := ih hts
    rw [heightOfItems, List.length_cons, renderAlternatives, List.length_cons,
      List.length_append]
    omega

/-- **A canonical tree is lower than its pattern is long.** -/
theorem Canonical.height_lt_length {t : Regex Char} (ht : t.Canonical) :
    t.height < t.render.length := by
  induction ht with
  | literal hc => exact Nat.one_pos
  | sequence hlen hfactor _ ih =>
    have := heightOfItems_add_length_le ih
    rw [height, render, renderFactors_eq_flatMap hfactor]
    omega
  | @choice ts hlen _ _ ih =>
    cases ts with
    | nil => exact absurd hlen (by simp)
    | cons t ts =>
      obtain ⟨ht, hts⟩ := List.forall_mem_cons.mp ih
      have := heightOfItems_add_length_le_renderAlternatives hts
      rw [List.length_cons] at hlen
      rw [height, heightOfItems, render, List.length_append]
      omega
  | star hatom _ ih =>
    rw [height, render, if_pos hatom, List.length_append]
    exact Nat.succ_lt_succ ih
  | group _ ih =>
    rw [height, render, parenthesize, List.length_cons, List.length_append]
    omega

namespace Draft

variable {d : Draft}

theorem Canonical.height_lt_length_of_mem (hd : d.Canonical) {t : Regex Char}
    (ht : t ∈ d.factors) : t.height < d.text.length := by
  refine Nat.lt_of_lt_of_le (hd.factor t ht).1.height_lt_length ?_
  obtain ⟨us, vs, hlist⟩ := List.append_of_mem (List.mem_reverse.mpr ht)
  rw [text, hlist, List.flatMap_append, List.flatMap_cons]
  simp only [List.length_append]
  omega

theorem Canonical.height_alternative_lt_length (hd : d.Canonical)
    (hne : d.factors ≠ []) : d.alternative.height < d.text.length := by
  have hheight := (hd.canonical_alternative hne).1.height_lt_length
  rw [hd.render_alternative] at hheight
  rw [text, List.length_append]
  omega

theorem Canonical.height_choice_lt_length (hd : d.Canonical)
    (hne : d.factors ≠ []) : d.choice.height < d.text.length := by
  rw [← hd.render_choice]
  exact (hd.canonical_choice hne).height_lt_length

end Draft


namespace Reader

variable {limit position : Nat} {r : Reader} {c : Char} {rest : List Char}
  {t : Regex Char}

/-- The parenthesis of every open group is in the text. -/
theorem length_groups_add_le (r : Reader) :
    r.groups.length + r.draft.text.length ≤ r.text.length := by
  have hgroups : ∀ gs : List (Nat × Draft),
      gs.length ≤ (gs.flatMap fun g => g.2.text ++ ['(']).length := by
    intro gs
    induction gs with
    | nil => exact Nat.le_refl _
    | cons g gs ih =>
      rw [List.flatMap_cons, List.length_append, List.length_append,
        List.length_cons, List.length_singleton]
      omega
  have := hgroups r.groups.reverse
  rw [List.length_reverse] at this
  rw [text, List.length_append]
  omega

theorem checkHeight_eq_ok (h : t.height ≤ limit) :
    checkHeight limit position t = .ok t :=
  if_neg (Nat.not_lt.mpr h)

/-- **A step refuses nothing** if the limit has room for what has been read and
for one character. -/
theorem Canonical.step_refusedIn_empty (hr : r.Canonical (c :: rest))
    (hroom : r.text.length < limit) : RefusedIn ∅ (r.step limit c rest) := by
  have hlength := r.length_groups_add_le
  obtain rfl | rfl | rfl | rfl | hc := sign_cases c
  · rw [step_bar, Reader.bar]
    split
    · exact nofun
    · next hne =>
      have := hr.draft.height_alternative_lt_length (by simpa using hne)
      rw [checkHeight_eq_ok (by omega)]
      exact refusedIn_ok _ _
  · rw [step_openGroup, Reader.openGroup, if_neg (by omega)]
    exact refusedIn_ok _ _
  · rw [step_closeGroup, Reader.closeGroup]
    split
    · exact nofun
    · split
      · exact nofun
      · next hne =>
        have := hr.draft.height_choice_lt_length (by simpa using hne)
        have hgroup : (Regex.group r.draft.choice).height ≤ limit := by
          rw [height]
          omega
        rw [checkHeight_eq_ok (by omega)]
        show RefusedIn ∅ ((checkHeight _ _ (Regex.group _)).bind _)
        rw [checkHeight_eq_ok hgroup]
        exact refusedIn_ok _ _
  · rw [step_star, Reader.star]
    split
    · exact nofun
    · next t ts hts =>
      have := hr.draft.height_lt_length_of_mem (hts ▸ List.mem_cons_self)
      have hstar : (Regex.star t).height ≤ limit := by
        rw [height]
        omega
      split
      · exact nofun
      · rw [checkHeight_eq_ok hstar]
        exact refusedIn_ok _ _
  · rw [step_literal hc]
    exact refusedIn_ok _ _

theorem Canonical.finish_refusedIn_empty (hr : r.Canonical [])
    (hroom : r.text.length ≤ limit) : RefusedIn ∅ (r.finish limit) := by
  have hlength := r.length_groups_add_le
  unfold finish
  split
  · exact nofun
  · next hne =>
    have := hr.draft.height_choice_lt_length (by simpa using hne)
    rw [checkHeight_eq_ok (by omega)]
    split
    · exact refusedIn_ok _ _
    · exact nofun

/-- **Reading refuses nothing** if the limit has room for the whole text. -/
theorem Canonical.run_refusedIn_empty {cs : List Char} (hr : r.Canonical cs)
    (hroom : r.text.length + cs.length ≤ limit) :
    RefusedIn ∅ (r.run limit cs) := by
  induction cs generalizing r with
  | nil => exact hr.finish_refusedIn_empty hroom
  | cons c rest ih =>
    rw [List.length_cons] at hroom
    refine (hr.step_refusedIn_empty (by omega)).bind fun s hs => ?_
    obtain ⟨hcanonical, htext⟩ := hr.step hs
    refine ih hcanonical ?_
    rw [htext, List.length_append, List.length_singleton]
    omega

end Reader

/-- **A limit as high as the text is long** refuses no nesting. -/
theorem read_refusedIn_empty {limit : Nat} {u : List Char}
    (h : u.length ≤ limit) : RefusedIn ∅ (read limit u) :=
  (Reader.canonical_start u).run_refusedIn_empty
    (by rwa [show Reader.start.text = [] from rfl, List.length_nil, Nat.zero_add])

/-- **The limit on nesting only cuts off.** What is not refused as nested too
deeply under a limit is the same under every higher one. What is refused under
a limit is refused under every lower one, at the same place or before it. And
a limit that is not below the number of characters refuses nothing. -/
theorem ofPattern_limit_only_cuts_off (pattern : String) :
    (∀ limit limit', limit ≤ limit' →
      ((∀ q, ofPattern limit pattern ≠ .error ⟨.nestedTooDeep, q⟩) →
        ofPattern limit' pattern = ofPattern limit pattern) ∧
      ∀ q', ofPattern limit' pattern = .error ⟨.nestedTooDeep, q'⟩ →
        ∃ q ≤ q', ofPattern limit pattern = .error ⟨.nestedTooDeep, q⟩) ∧
    ∀ limit, pattern.length ≤ limit →
      ∀ q, ofPattern limit pattern ≠ .error ⟨.nestedTooDeep, q⟩ := by
  refine ⟨fun limit limit' hle => ?_, fun limit hroom q => ?_⟩
  · have hcut := ofPattern_cutsOff hle pattern
    exact ⟨fun h => (hcut.eq_of_refusedIn_empty h).symm,
      fun q' => hcut.exists_le⟩
  · rw [← String.length_toList] at hroom
    exact read_refusedIn_empty hroom q

/-- An open group with a star in a starred group and a bar with nothing behind
it. The outer star is too high for two levels. Three let the missing factor come
to light. -/
theorem ofPattern_limit_only_cuts_off_starredGroup :
    ofPattern 2 "((a*)*|" = .error ⟨.nestedTooDeep, 6⟩ ∧
      (∃ q ≤ 6, ofPattern 1 "((a*)*|" = .error ⟨.nestedTooDeep, q⟩) ∧
      ofPattern 250 "((a*)*|" = .error ⟨.missingFactor, 7⟩ ∧
      ∀ q, ofPattern 7 "((a*)*|" ≠ .error ⟨.nestedTooDeep, q⟩ := by
  have hlow : ofPattern 2 "((a*)*|" = .error ⟨.nestedTooDeep, 6⟩ := by decide
  have hhigh : ofPattern 3 "((a*)*|" = .error ⟨.missingFactor, 7⟩ := by
    decide
  obtain ⟨hcut, hroom⟩ := ofPattern_limit_only_cuts_off "((a*)*|"
  refine ⟨hlow, (hcut 1 2 (by decide)).2 6 hlow, ?_, hroom 7 (by decide)⟩
  rw [(hcut 3 250 (by decide)).1 fun q hq => ?_, hhigh]
  exact absurd (hhigh.symm.trans hq) nofun

end Recognizer.Regex
