import Recognizer.Regex.Basic

/-!
# The language of a regular expression

What a tree means is the set of words it matches, and `Regex.Matches`
says which those are without any automaton: a literal matches its
symbol, a sequence what its items match one after the other, a choice
what one of its items matches, a star what any number of matches make
up, a group what it holds.
-/

namespace Recognizer.Regex

variable {α : Type}

mutual

/-- **The words a tree matches.** -/
def Matches : Regex α → List α → Prop
  | literal a, w => w = [a]
  | sequence ts, w => MatchesEach ts w
  | choice ts, w => MatchesSome ts w
  | star t, w => ∃ ws : List (List α), w = ws.flatten ∧ ∀ u ∈ ws, t.Matches u
  | group t, w => t.Matches w

/-- The words that the items match one after the other; the empty word
where there are no items. -/
def MatchesEach : List (Regex α) → List α → Prop
  | [], w => w = []
  | t :: ts, w => ∃ u v, w = u ++ v ∧ t.Matches u ∧ MatchesEach ts v

/-- The words that some item matches. -/
def MatchesSome : List (Regex α) → List α → Prop
  | [], _ => False
  | t :: ts, w => t.Matches w ∨ MatchesSome ts w

end

theorem matchesSome_iff {ts : List (Regex α)} {w : List α} :
    MatchesSome ts w ↔ ∃ t ∈ ts, t.Matches w := by
  induction ts with
  | nil => simp [MatchesSome]
  | cons t ts ih => simp [MatchesSome, ih]

/-- **A tree matches words over its own symbols only.** -/
theorem mem_leaves_of_matches {t : Regex α} :
    ∀ {w : List α}, t.Matches w → ∀ a ∈ w, a ∈ t.leaves := by
  have heach : ∀ ts : List (Regex α),
      (∀ t ∈ ts, ∀ w, t.Matches w → ∀ a ∈ w, a ∈ t.leaves) →
      ∀ w, MatchesEach ts w → ∀ a ∈ w, a ∈ leavesOfItems ts := by
    intro ts
    induction ts with
    | nil =>
      rintro - w rfl a ha
      exact absurd ha List.not_mem_nil
    | cons t ts ih =>
      rintro h _ ⟨u, v, rfl, hu, hv⟩ a ha
      rw [leavesOfItems, List.mem_append]
      rcases List.mem_append.mp ha with ha | ha
      · exact Or.inl (h t List.mem_cons_self u hu a ha)
      · exact Or.inr (ih (fun t ht => h t (List.mem_cons_of_mem _ ht)) v hv
          a ha)
  intro w h
  induction t using Regex.induction generalizing w with
  | literal b =>
    have h' : w = [b] := h
    rw [h', leaves]
    exact fun _ => id
  | sequence ts ih =>
    exact heach ts (fun t ht _ hw => ih t ht hw) w h
  | choice ts ih =>
    intro a ha
    obtain ⟨t, ht, hw⟩ := matchesSome_iff.mp h
    rw [leaves, leavesOfItems_eq_flatMap, List.mem_flatMap]
    exact ⟨t, ht, ih t ht hw a ha⟩
  | star t ih =>
    obtain ⟨ws, rfl, hws⟩ := h
    intro a ha
    obtain ⟨u, hu, ha⟩ := List.mem_flatten.mp ha
    exact ih (hws u hu) a ha
  | group t ih => exact ih h

end Recognizer.Regex
