import Recognizer.Proofs.Realization
import Recognizer.Regex.Construction

/-!
# What comes of building a tree within limits

Building a tree over symbols of the alphabet has three outcomes, and
`Regex.Outcome` says when each of them may occur: the automaton that is built
without limits, if no node is too deep and no automaton on the way is too
large; a refusal of the depth, if some node is too deep; a refusal of an
automaton, if that automaton is larger than the limit. The automaton that is
refused need not be that of the whole tree, but it is never larger.

The last point is about numbers of states, and these are exact as long as the
ids suffice. There are two reasons why they may (`Limits.Room`): the whole
tree fits into the ids, or the limit on states is so low that the construction
gives up before it runs out of them. Either is handed down from a tree to its
parts.

Outcomes compose like the construction does (`Outcome.bind`), and so one
induction over the tree is enough (`nodeNFA_outcome`).
-/

open scoped Computability

namespace Recognizer

namespace Limits

/-- **Room for states**: there are ids for so many states, or the limit on
states is reached before the ids are used up. -/
def Room (L : Limits) (n : Nat) : Prop :=
  n ≤ UInt32.size ∨ ∃ limit, L.states = some limit ∧ 2 * limit + 4 ≤ UInt32.size

variable {L : Limits} {m n : Nat}

/-- Where there is room for more there is room for less. -/
theorem Room.mono (h : L.Room n) (hmn : m ≤ n) : L.Room m :=
  h.imp_left fun hn => Nat.le_trans hmn hn

/-- Two automata within the limit on states can be combined: what is made of
them has ids. -/
theorem Room.le_size (h : L.Room n)
    (hn : ∀ limit, L.states = some limit → n ≤ 2 * limit + 4) :
    n ≤ UInt32.size := by
  rcases h with h | ⟨limit, hlimit, hsize⟩
  · exact h
  · exact Nat.le_trans (hn limit hlimit) hsize

/-- What is within the limit on states has ids. -/
theorem Room.le_size_of_le (h : L.Room n)
    (hn : ∀ limit, L.states = some limit → n ≤ limit) : n ≤ UInt32.size :=
  h.le_size fun limit hlimit => Nat.le_trans (hn limit hlimit) (by omega)

end Limits

namespace Regex

variable {α : Type} [LinearOrd α] {S : Alphabet α} {L : Limits}
  {depth depth' : Nat} {e e' : Extent} {l l' : Language α} {A B : NFA α}

/-- **An automaton as it may go further up**: nothing was too deep below, and
with room for the states the automaton is what was foreseen. -/
structure Built (S : Alphabet α) (L : Limits) (depth : Nat) (e : Extent)
    (l : Language α) (A : NFA α) : Prop where
  wellFormed : A.WellFormed
  depth_le : depth ≤ L.nesting
  realizes : L.Room e.states → A.Realizes S e l

/-- **An automaton that has passed the limit on states.** -/
structure Allowed (S : Alphabet α) (L : Limits) (depth : Nat) (e : Extent)
    (l : Language α) (A : NFA α) : Prop extends Built S L depth e l A where
  size_le : ∀ limit, L.states = some limit → A.size ≤ limit

/-- **What building an automaton comes to**, when its deepest node has this
depth and it is to have this extent and this language. -/
inductive Outcome (S : Alphabet α) (L : Limits) (depth : Nat) (e : Extent)
    (l : Language α) (A : NFA α) : Except (Fault α) (NFA α) → Prop where
  /-- The automaton, if nothing is too deep and nothing too large. -/
  | built : Allowed S L depth e l A → Outcome S L depth e l A (.ok A)
  /-- A refusal of the depth. -/
  | tooDeep : L.nesting < depth →
      Outcome S L depth e l A (.error (.tooDeep L.nesting))
  /-- A refusal of an automaton that is larger than the limit and not larger
  than what was to be built. -/
  | tooLarge {limit states : Nat} : L.states = some limit → limit < states →
      (L.Room e.states → states ≤ e.states) →
      Outcome S L depth e l A (.error (.tooManyStates limit states))

/-- **Outcomes compose**: what is built of a part is used further, and a
refusal of a part is one of the whole, which is as deep and as large at
least. -/
theorem Outcome.bind {x : Except (Fault α) (NFA α)}
    {f : NFA α → Except (Fault α) (NFA α)} (hx : Outcome S L depth e l A x)
    (hdepth : depth ≤ depth') (hstates : e.states ≤ e'.states)
    (hf : Allowed S L depth e l A → Outcome S L depth' e' l' B (f A)) :
    Outcome S L depth' e' l' B (x.bind f) := by
  cases hx with
  | built hA => exact hf hA
  | tooDeep h => exact .tooDeep (Nat.lt_of_lt_of_le h hdepth)
  | tooLarge hlimit h hle =>
    exact .tooLarge hlimit h fun hroom =>
      Nat.le_trans (hle (hroom.mono hstates)) hstates

/-- **What fits and is not too deep is built**, as it was foreseen. -/
theorem Outcome.realizes {x : Except (Fault α) (NFA α)}
    (hx : Outcome S L depth e l A x) (hdepth : depth ≤ L.nesting)
    (hroom : L.Room e.states)
    (hfit : ∀ limit, L.states = some limit → e.states ≤ limit) :
    x = .ok A ∧ A.Realizes S e l := by
  cases hx with
  | built hA => exact ⟨rfl, hA.realizes hroom⟩
  | tooDeep h => exact absurd hdepth (Nat.not_le.mpr h)
  | tooLarge hlimit h hle =>
    exact absurd (Nat.le_trans (hle hroom) (hfit _ hlimit)) (Nat.not_le.mpr h)

/-- **What is larger than the limit and not too deep is refused** for its
size. -/
theorem Outcome.exists_tooManyStates {x : Except (Fault α) (NFA α)}
    (hx : Outcome S L depth e l A x) (hdepth : depth ≤ L.nesting)
    (hroom : L.Room e.states) {limit : Nat} (hlimit : L.states = some limit)
    (hlarge : limit < e.states) :
    ∃ states, limit < states ∧ states ≤ e.states ∧
      x = .error (.tooManyStates limit states) := by
  cases hx with
  | built hA =>
    have hsize := hA.size_le limit hlimit
    rw [(hA.realizes hroom).size_eq] at hsize
    exact absurd hsize (Nat.not_le.mpr hlarge)
  | tooDeep h => exact absurd hdepth (Nat.not_le.mpr h)
  | tooLarge hlimit' h hle =>
    cases hlimit.symm.trans hlimit'
    exact ⟨_, h, hle hroom, rfl⟩

/-- The limit on states lets an automaton pass or refuses it. -/
theorem Built.outcome_allow (hA : Built S L depth e l A) :
    Outcome S L depth e l A (L.allow A) := by
  unfold Limits.allow
  split
  · next hnone =>
    exact .built ⟨hA, fun limit hlimit => absurd (hnone.symm.trans hlimit) nofun⟩
  · next limit hlimit =>
    split
    · next h =>
      exact .tooLarge hlimit h fun hroom =>
        Nat.le_of_eq (hA.realizes hroom).size_eq
    · next h =>
      refine .built ⟨hA, fun limit' hlimit' => ?_⟩
      cases hlimit.symm.trans hlimit'
      exact Nat.le_of_not_lt h

/-- Below a depth that passes, a construction goes on. -/
theorem Outcome.descend {x : Except (Fault α) (NFA α)} {i : Nat}
    (hi : i ≤ depth)
    (hx : i ≤ L.nesting → Outcome S L depth e l A x) :
    Outcome S L depth e l A ((L.descend i).bind fun _ => x) := by
  unfold Limits.descend
  split
  · next h => exact .tooDeep (Nat.lt_of_lt_of_le h hi)
  · next h => exact hx (Nat.le_of_not_lt h)

/-- **Two automata within the limit are combined as foreseen.** -/
theorem Allowed.combine {combine : NFA α → NFA α → NFA α}
    {measure : Extent → Extent → Extent}
    {op : Language α → Language α → Language α} {f : Extent} {m : Language α}
    (hc : NFA.Combines S combine measure op) (hA : Allowed S L depth e l A)
    (hB : Allowed S L depth' f m B) :
    Built S L (max depth depth') (measure e f) (op l m) (combine A B) where
  wellFormed := hc.wellFormed hA.wellFormed hB.wellFormed
  depth_le := Nat.max_le.mpr ⟨hA.depth_le, hB.depth_le⟩
  realizes hroom := by
    have he := e.states_le_fragmentSize
    have hf := f.states_le_fragmentSize
    have hle := hc.le_states e f
    have hA' := hA.realizes (hroom.mono (by omega))
    have hB' := hB.realizes (hroom.mono (by omega))
    refine hc.realizes hA' hB' (hroom.le_size fun limit hlimit => ?_)
    have hsizeA := hA.size_le limit hlimit
    have hsizeB := hB.size_le limit hlimit
    rw [hA'.size_eq] at hsizeA
    rw [hB'.size_eq] at hsizeB
    have := hc.states_le e f
    have := e.fragmentSize_le
    have := f.fragmentSize_le
    omega

/-- **An automaton within the limit is repeated as foreseen.** -/
theorem Allowed.star (hA : Allowed S L depth e l A) :
    Built S L depth e.star l∗ A.star where
  wellFormed := NFA.wellFormed_star hA.wellFormed
  depth_le := hA.depth_le
  realizes hroom := by
    have hstar : e.star.states = e.fragmentSize + 2 := rfl
    have := e.states_le_fragmentSize
    have hA' := hA.realizes (hroom.mono (by omega))
    refine hA'.star (hroom.le_size fun limit hlimit => ?_)
    have hsize := hA.size_le limit hlimit
    rw [hA'.size_eq] at hsize
    have := e.fragmentSize_le
    omega

section Items

variable {combine : NFA α → NFA α → NFA α}
  {measure : Extent → Extent → Extent}
  {op : Language α → Language α → Language α} {i : Nat} {ts : List (Regex α)}

/-- **Further items** are combined with what has been built so far, one after
the other. -/
theorem combineNFA_outcome (hc : NFA.Combines S combine measure op)
    (hts : ∀ t ∈ ts, Outcome S L (i + (t.depth + 1)) t.extent
      ((Interpretation.languages α).eval t) (t.automaton S)
      (t.nodeNFA S L (i + 1)))
    (hi : i ≤ depth) (hA : Allowed S L depth e l A) :
    Outcome S L (max depth (i + depthOfItems ts))
      ((Extent.interpretation α).evalRest measure ts e)
      ((Interpretation.languages α).evalRest op ts l)
      ((NFA.interpretation S).evalRest combine ts A)
      (combineNFA S L combine ts (i + 1) A) := by
  induction ts generalizing depth e l A with
  | nil =>
    rw [depthOfItems, Nat.add_zero, Nat.max_eq_left hi]
    exact .built hA
  | cons t ts ih =>
    have hdepth : max (max depth (i + (t.depth + 1))) (i + depthOfItems ts)
        = max depth (i + depthOfItems (t :: ts)) := by
      rw [depthOfItems]
      omega
    have hfirst := hc.le_states e t.extent
    have ht := t.extent.states_le_fragmentSize
    have hrest := states_le_evalRest hc.le_states ts (measure e t.extent)
    rw [← hdepth]
    unfold combineNFA
    refine (hts t List.mem_cons_self).bind (by omega)
      (Nat.le_trans (by omega) hrest) fun hB => ?_
    refine (hA.combine hc hB).outcome_allow.bind (Nat.le_max_left ..) hrest
      fun hAB => ?_
    exact ih (fun u hu => hts u (List.mem_cons_of_mem _ hu)) (by omega) hAB

/-- **Items**, of which there may be none, are combined from left to right,
and what comes of them passes the limit on states. -/
theorem itemsNFA_outcome (hc : NFA.Combines S combine measure op)
    (acceptsEmpty : Bool)
    (hts : ∀ t ∈ ts, Outcome S L (i + (t.depth + 1)) t.extent
      ((Interpretation.languages α).eval t) (t.automaton S)
      (t.nodeNFA S L (i + 1)))
    (hi : i ≤ L.nesting) :
    Outcome S L (i + depthOfItems ts)
      ((Extent.interpretation α).evalItems measure acceptsEmpty ts)
      ((Interpretation.languages α).evalItems op acceptsEmpty ts)
      ((NFA.interpretation S).evalItems combine acceptsEmpty ts)
      ((itemsNFA S L combine acceptsEmpty ts (i + 1)).bind L.allow) := by
  cases ts with
  | nil =>
    exact Built.outcome_allow ⟨NFA.wellFormed_point S 0 acceptsEmpty, hi,
      fun _ => .point S acceptsEmpty⟩
  | cons t ts =>
    have hrest := states_le_evalRest hc.le_states ts t.extent
    have hitems := (hts t List.mem_cons_self).bind (Nat.le_max_left ..) hrest
      fun hA => combineNFA_outcome hc
        (fun u hu => hts u (List.mem_cons_of_mem _ hu))
        (Nat.le_add_right i _) hA
    rw [Nat.add_max_add_left] at hitems
    exact hitems.bind (Nat.le_refl _) (Nat.le_refl _) fun hA =>
      hA.toBuilt.outcome_allow

end Items

/-- **A node has one of the outcomes of its tree.** -/
theorem nodeNFA_outcome {t : Regex α} (hS : ∀ a ∈ t.leaves, a ∈ S) (i : Nat) :
    Outcome S L (i + t.depth) t.extent ((Interpretation.languages α).eval t)
      (t.automaton S) (t.nodeNFA S L i) := by
  -- a child is built one level further down
  have hlevel : ∀ i d, i + 1 + d = i + (d + 1) := by omega
  induction t using Regex.induction generalizing i with
  | literal a =>
    have ha := hS a List.mem_cons_self
    have hreal := NFA.Realizes.letter ha
    unfold nodeNFA
    rw [NFA.single_eq_letter ha]
    exact .descend (Nat.le_add_right ..) fun hi =>
      Built.outcome_allow ⟨hreal.wellFormed, hi, fun _ => hreal⟩
  | sequence ts ih =>
    have hts := fun u (hu : u ∈ ts) => ih u hu
      (fun a ha => hS a (leaves_subset_leavesOfItems hu ha)) (i + 1)
    simp only [hlevel] at hts
    unfold nodeNFA
    exact .descend (Nat.le_add_right ..)
      (itemsNFA_outcome (NFA.combines_sequence S) true hts)
  | choice ts ih =>
    have hts := fun u (hu : u ∈ ts) => ih u hu
      (fun a ha => hS a (leaves_subset_leavesOfItems hu ha)) (i + 1)
    simp only [hlevel] at hts
    unfold nodeNFA
    exact .descend (Nat.le_add_right ..)
      (itemsNFA_outcome (NFA.combines_choice S) false hts)
  | star t ih =>
    have ht := ih hS (i + 1)
    rw [hlevel] at ht
    have hgrow : t.extent.states ≤ t.extent.star.states :=
      Nat.le_trans t.extent.states_le_fragmentSize (Nat.le_add_right ..)
    unfold nodeNFA
    exact .descend (Nat.le_add_right ..) fun _ =>
      ht.bind (Nat.le_refl _) hgrow fun hA => hA.star.outcome_allow
  | group t ih =>
    have ht := ih hS (i + 1)
    rw [hlevel] at ht
    unfold nodeNFA
    exact .descend (Nat.le_add_right ..) fun _ =>
      ht.bind (Nat.le_refl _) (Nat.le_refl _) fun hA =>
        hA.toBuilt.outcome_allow

/-- **A tree over symbols of the alphabet** has one of its outcomes. -/
theorem toNFA_outcome {t : Regex α} (hS : ∀ a ∈ t.leaves, a ∈ S) :
    Outcome S L t.depth t.extent t.language (t.automaton S) (t.toNFA S L) := by
  have h := nodeNFA_outcome (L := L) hS 0
  rw [Nat.zero_add, eval_languages] at h
  rw [toNFA, literals_eq_leaves, Alphabet.firstOutside_eq_none_iff.mpr hS]
  exact h

/-- The leftmost symbol from outside the alphabet is found before anything is
built. -/
theorem toNFA_eq_outsideSymbol {t : Regex α} {a : α}
    (h : S.firstOutside t.leaves = some a) :
    t.toNFA S L = .error (.outsideSymbol a) := by
  rw [toNFA, literals_eq_leaves, h]

/-- **Building is refused for a symbol or has one of the outcomes** of the
tree. -/
theorem toNFA_cases (S : Alphabet α) (L : Limits) (t : Regex α) :
    (∃ a, t.toNFA S L = .error (.outsideSymbol a)) ∨
      Outcome S L t.depth t.extent t.language (t.automaton S)
        (t.toNFA S L) := by
  cases hleaf : S.firstOutside t.leaves with
  | some a => exact Or.inl ⟨a, toNFA_eq_outsideSymbol hleaf⟩
  | none =>
    exact Or.inr (toNFA_outcome (Alphabet.firstOutside_eq_none_iff.mp hleaf))

/-- **Building fails for three reasons only**, and for the depth only where a
node is too deep. -/
theorem toNFA_error_cases {t : Regex α} {f : Fault α}
    (h : t.toNFA S L = .error f) :
    (∃ a, f = .outsideSymbol a) ∨
      (f = .tooDeep L.nesting ∧ L.nesting < t.depth) ∨
      ∃ limit states, f = .tooManyStates limit states := by
  rcases toNFA_cases S L t with ⟨a, ha⟩ | hout
  · exact Or.inl ⟨a, Except.error.inj (h.symm.trans ha)⟩
  · rw [h] at hout
    cases hout with
    | tooDeep hdepth => exact Or.inr (Or.inl ⟨rfl, hdepth⟩)
    | tooLarge => exact Or.inr (Or.inr ⟨_, _, rfl⟩)

/-- **What is built of a tree is well-formed**, whatever the limits and
whether or not there is room for its states. -/
theorem wellFormed_of_toNFA {t : Regex α} (h : t.toNFA S L = .ok A) :
    A.WellFormed := by
  rcases toNFA_cases S L t with ⟨a, ha⟩ | hout
  · exact absurd (h.symm.trans ha) nofun
  · rw [h] at hout
    cases hout with
    | built hA => exact hA.wellFormed

end Regex

/-- **What is built of a pattern is well-formed.** -/
theorem NFA.wellFormed_of_ofPattern {S : Alphabet Char} {L : Limits}
    {pattern : String} {A : NFA Char} (h : NFA.ofPattern S L pattern = .ok A) :
    A.WellFormed := by
  unfold NFA.ofPattern at h
  split at h
  · exact absurd h nofun
  · exact Regex.wellFormed_of_toNFA h

end Recognizer
