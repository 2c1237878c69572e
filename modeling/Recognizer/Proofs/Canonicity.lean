import Mathlib.Data.List.Perm.Subperm
import Mathlib.Tactic.MkIffOfInductiveProp
import Recognizer.Proofs.Numbering

/-!
# Automata told by their order of discovery

To make an automaton deterministic is to number the positions of a machine.
Neither the numbers nor their order depend on how the positions were found. The
positions that words lead to, in the shortlex order of their least words, are
one list and no other (`Machine.DiscoveryOrder.unique`), and there is one
automaton that goes from place to place in a list as the machine goes from
position to position (`DFA.Numbers.unique`).

Both descriptions carry over to a machine that follows the first one without
taking two positions for one: its order of discovery is the other one read
position by position, and what numbers the one numbers the other
(`Machine.Follows.discoveryOrder_map`, `Machine.Follows.numbers_map_iff`). So
whenever two machines move alike, the automata that number them are equal, and
no search has to be looked at again.
-/

namespace Recognizer

/-! ## Least words -/

section Words

variable {α : Type} [LinearOrd α] {S : Alphabet α} {P Q : List α → Prop}
  {u v w : List α}

/-- Of two words one alone precedes the other. -/
theorem Precedes.asymm (h : Precedes u v) : ¬ Precedes v u := by
  have hasymm : Std.Asymm fun a b : α => compare a b = .lt :=
    ⟨fun a b hab hba => by
      rw [@Std.OrientedCmp.eq_swap _ compare, hba] at hab
      exact absurd hab nofun⟩
  exact List.Shortlex.asymm.asymm u v h

/-- **There is one least word.** -/
theorem IsLeastWord.unique (hu : IsLeastWord S P u) (hv : IsLeastWord S P v) :
    u = v := by
  rcases hu.eq_or_precedes v hv.mem_alphabet hv.holds with h | h
  · exact h.symm
  · exact (hv.eq_or_precedes u hu.mem_alphabet hu.holds).resolve_right h.asymm

/-- The least word depends only on which words over the alphabet have the
property. -/
theorem IsLeastWord.congr (h : IsLeastWord S P w)
    (hPQ : ∀ v, (∀ a ∈ v, a ∈ S) → (P v ↔ Q v)) : IsLeastWord S Q w where
  mem_alphabet := h.mem_alphabet
  holds := (hPQ w h.mem_alphabet).mp h.holds
  eq_or_precedes v hv hQ := h.eq_or_precedes v hv ((hPQ v hv).mpr hQ)

end Words

/-- Things related one by one to a sorted list are sorted by what they are
related to. -/
theorem pairwise_of_forall₂ {β γ : Type} {R : β → γ → Prop} {r : β → β → Prop}
    {bs : List β} {cs : List γ} (h : List.Forall₂ R bs cs)
    (hbs : bs.Pairwise r) :
    cs.Pairwise fun c d => ∃ a b, R a c ∧ R b d ∧ r a b := by
  induction h with
  | nil => exact .nil
  | @cons b c bs cs hbc htail ih =>
    obtain ⟨hb, hbs⟩ := List.pairwise_cons.mp hbs
    refine List.pairwise_cons.mpr ⟨fun d hd => ?_, ih hbs⟩
    obtain ⟨i, hi, rfl⟩ := List.getElem_of_mem hd
    have hi' : i < bs.length := htail.length_eq ▸ hi
    exact ⟨b, bs[i], hbc, htail.get hi' hi, hb _ (List.getElem_mem hi')⟩

/-- Different states are no more than there are ids. -/
theorem length_le_of_nodup {qs : List State} (h : qs.Nodup) :
    qs.length ≤ UInt32.size := by
  have hsub : qs.map UInt32.toNat ⊆ List.range UInt32.size := fun n hn => by
    obtain ⟨q, -, rfl⟩ := List.mem_map.mp hn
    exact List.mem_range.mpr q.toNat_lt
  have hnodup : (qs.map UInt32.toNat).Nodup :=
    h.map fun p q => UInt32.toNat_inj.mp
  have hle := (hnodup.subperm hsub).length_le
  rwa [List.length_map, List.length_range] at hle

/-! ## The order of discovery -/

namespace Machine

variable {α σ τ : Type} [LinearOrd α] {M : Machine α σ} {N : Machine α τ}
  {ss ts : List σ} {s t : σ} {w : List α}

/-- The shortlex-least word that leads to a position. -/
def IsAccessWord (M : Machine α σ) (w : List α) (s : σ) : Prop :=
  IsLeastWord M.alphabet (M.walk M.start · = some s) w

/-- **The positions in their order of discovery**: those that words over the
alphabet lead to, listed with their least words in shortlex order. -/
structure DiscoveryOrder (M : Machine α σ) (ss : List σ) : Prop where
  mem_iff : ∀ s, s ∈ ss ↔
    ∃ w, (∀ a ∈ w, a ∈ M.alphabet) ∧ M.walk M.start w = some s
  accessWords : ∃ ws : List (List α), ws.Pairwise Precedes ∧
    List.Forall₂ M.IsAccessWord ws ss

/-- A position has one access word. -/
theorem IsAccessWord.unique {v : List α} (hw : M.IsAccessWord w s)
    (hv : M.IsAccessWord v s) : w = v :=
  IsLeastWord.unique hw hv

/-- Whether one position is discovered before another. -/
def Earlier (M : Machine α σ) (s t : σ) : Prop :=
  ∃ u v, M.IsAccessWord u s ∧ M.IsAccessWord v t ∧ Precedes u v

theorem Earlier.asymm (h : M.Earlier s t) : ¬ M.Earlier t s := by
  obtain ⟨u, v, hu, hv, huv⟩ := h
  rintro ⟨v', u', hv', hu', hvu⟩
  rw [hv'.unique hv, hu'.unique hu] at hvu
  exact huv.asymm hvu

namespace DiscoveryOrder

theorem pairwise (h : M.DiscoveryOrder ss) : ss.Pairwise M.Earlier := by
  obtain ⟨ws, hsorted, hws⟩ := h.accessWords
  exact pairwise_of_forall₂ hws hsorted

/-- **No position is discovered twice.** -/
theorem nodup (h : M.DiscoveryOrder ss) : ss.Nodup :=
  h.pairwise.imp fun hst he => (he ▸ hst).asymm (he ▸ hst)

/-- **There is one order of discovery.** -/
theorem unique (hs : M.DiscoveryOrder ss) (ht : M.DiscoveryOrder ts) :
    ss = ts := by
  have hperm : ss.Perm ts :=
    (List.perm_ext_iff_of_nodup hs.nodup ht.nodup).mpr fun s => by
      rw [hs.mem_iff, ht.mem_iff]
  exact hperm.eq_of_pairwise (fun s t _ _ hst hts => absurd hts hst.asymm)
    hs.pairwise ht.pairwise

end DiscoveryOrder

/-- **A complete search lists the positions in their order of discovery.** -/
theorem discoveryOrder_discover [LinearOrd σ] {bound : Nat}
    (h : ∀ s, s ∈ discover bound M.successors [M.start] ↔
      Reachable M.successors [M.start] s) :
    M.DiscoveryOrder (discover bound M.successors [M.start]) where
  mem_iff s := (h s).trans reachable_iff_exists_walk
  accessWords := M.exists_leastWords_discover bound

end Machine

/-! ## Positions with numbers -/

/-- **A deterministic automaton that numbers the positions of a machine**, each
by its place in a list. -/
@[mk_iff]
structure DFA.Numbers {α σ : Type} [LinearOrd α] (D : DFA α) (M : Machine α σ)
    (ss : List σ) : Prop where
  alphabet_eq : D.alphabet = M.alphabet
  start_eq : D.start = 0
  head?_eq : ss.head? = some M.start
  /-- Every place is the number of a state. -/
  length_le : ss.length ≤ UInt32.size
  mem_states_iff : ∀ k, k ∈ D.states ↔ k.toNat < ss.length
  mem_final_iff : ∀ k, k ∈ D.final ↔
    ∃ s, ss[k.toNat]? = some s ∧ M.final s = true
  target?_eq_some_iff : ∀ k a j, D.target? k a = some j ↔ a ∈ M.alphabet ∧
    ∃ s t, ss[k.toNat]? = some s ∧ ss[j.toNat]? = some t ∧
      M.next? s a = some t

/-- **One automaton numbers a list.** -/
theorem DFA.Numbers.unique {α σ : Type} [LinearOrd α] {D E : DFA α}
    {M : Machine α σ} {ss : List σ} (hD : D.Numbers M ss)
    (hE : E.Numbers M ss) : D = E :=
  ext_target (hD.alphabet_eq.trans hE.alphabet_eq.symm)
    (hD.start_eq.trans hE.start_eq.symm)
    (fun k => (hD.mem_states_iff k).trans (hE.mem_states_iff k).symm)
    (fun k => (hD.mem_final_iff k).trans (hE.mem_final_iff k).symm)
    fun k a j =>
      (hD.target?_eq_some_iff k a j).trans (hE.target?_eq_some_iff k a j).symm

/-! ## Machines that move alike -/

namespace Machine.Follows

variable {α σ τ : Type} [LinearOrd α] {M : Machine α σ} {N : Machine α τ}
  {f : σ → τ} {P : σ → Prop} {ss : List σ} {s t : σ} {a : α} {w : List α}
  (h : N.Follows M f P) (hf : ∀ s t, P s → P t → f s = f t → s = t)
include h hf

/-- What takes a machine to the image of a position takes the other one to the
position. -/
theorem next?_eq_some_iff (ha : a ∈ M.alphabet) (hs : P s) (ht : P t) :
    N.next? (f s) a = some (f t) ↔ M.next? s a = some t := by
  rw [h.next?_eq s hs a ha, Option.map_eq_some_iff]
  refine ⟨fun ⟨t', hnext, he⟩ => ?_, fun hnext => ⟨t, hnext, rfl⟩⟩
  rw [hnext, hf t' t (h.next?_mem s hs a ha t' hnext) ht he]

/-- A word that leads to the image of a position leads to the position. -/
theorem walk_eq_some_iff (hw : ∀ a ∈ w, a ∈ M.alphabet) (hs : P s) :
    N.walk N.start w = some (f s) ↔ M.walk M.start w = some s := by
  obtain ⟨hwalk, hmem⟩ := h.walk_eq hw h.start_mem
  rw [h.start_eq, hwalk, Option.map_eq_some_iff]
  refine ⟨fun ⟨t, ht, he⟩ => ?_, fun ht => ⟨s, ht, rfl⟩⟩
  rw [ht, hf t s (hmem t ht) hs he]

/-- A position and its image have the same access word. -/
theorem isAccessWord_map (hw : M.IsAccessWord w s) :
    N.IsAccessWord w (f s) := by
  have hs : P s := (h.walk_eq hw.mem_alphabet h.start_mem).2 s hw.holds
  unfold IsAccessWord
  rw [h.alphabet_eq]
  exact hw.congr fun v hv => (h.walk_eq_some_iff hf hv hs).symm

/-- **The order of discovery is read position by position.** -/
theorem discoveryOrder_map (hss : M.DiscoveryOrder ss) :
    N.DiscoveryOrder (ss.map f) := by
  refine ⟨fun t => ?_, ?_⟩
  · simp only [List.mem_map, hss.mem_iff, h.alphabet_eq]
    constructor
    · rintro ⟨s, ⟨w, hw, hwalk⟩, rfl⟩
      have hs : P s := (h.walk_eq hw h.start_mem).2 s hwalk
      exact ⟨w, hw, (h.walk_eq_some_iff hf hw hs).mpr hwalk⟩
    · rintro ⟨w, hw, hwalk⟩
      rw [h.start_eq, (h.walk_eq hw h.start_mem).1,
        Option.map_eq_some_iff] at hwalk
      obtain ⟨s, hs, rfl⟩ := hwalk
      exact ⟨s, ⟨w, hw, hs⟩, rfl⟩
  · obtain ⟨ws, hsorted, hws⟩ := hss.accessWords
    refine ⟨ws, hsorted, List.forall₂_map_right_iff.mpr ?_⟩
    exact hws.imp fun w s hw => h.isAccessWord_map hf hw

/-- **What numbers the positions numbers their images**, and what numbers the
images the positions. -/
theorem numbers_map_iff {D : DFA α} (hss : ∀ s ∈ ss, P s) :
    D.Numbers N (ss.map f) ↔ D.Numbers M ss := by
  have hplace : ∀ {i : Nat} {s : σ}, ss[i]? = some s → P s :=
    fun hs => hss _ (List.mem_of_getElem? hs)
  have hfinal : ∀ k : State,
      (∃ t, (ss.map f)[k.toNat]? = some t ∧ N.final t = true) ↔
        ∃ s, ss[k.toNat]? = some s ∧ M.final s = true := by
    intro k
    simp only [List.getElem?_map, Option.map_eq_some_iff]
    constructor
    · rintro ⟨_, ⟨s, hs, rfl⟩, hN⟩
      exact ⟨s, hs, h.final_eq s (hplace hs) ▸ hN⟩
    · rintro ⟨s, hs, hM⟩
      exact ⟨f s, ⟨s, hs, rfl⟩, (h.final_eq s (hplace hs)).trans hM⟩
  have hnext : ∀ (k j : State) (a : α),
      (a ∈ M.alphabet ∧ ∃ s t, (ss.map f)[k.toNat]? = some s ∧
        (ss.map f)[j.toNat]? = some t ∧ N.next? s a = some t) ↔
      a ∈ M.alphabet ∧ ∃ s t, ss[k.toNat]? = some s ∧
        ss[j.toNat]? = some t ∧ M.next? s a = some t := by
    intro k j a
    refine and_congr_right fun ha => ?_
    simp only [List.getElem?_map, Option.map_eq_some_iff]
    constructor
    · rintro ⟨_, _, ⟨s, hs, rfl⟩, ⟨t, ht, rfl⟩, hN⟩
      exact ⟨s, t, hs, ht,
        (h.next?_eq_some_iff hf ha (hplace hs) (hplace ht)).mp hN⟩
    · rintro ⟨s, t, hs, ht, hM⟩
      exact ⟨f s, f t, ⟨s, hs, rfl⟩, ⟨t, ht, rfl⟩,
        (h.next?_eq_some_iff hf ha (hplace hs) (hplace ht)).mpr hM⟩
  have hhead : (ss.map f).head? = some N.start ↔ ss.head? = some M.start := by
    rw [List.head?_map, Option.map_eq_some_iff, h.start_eq]
    refine ⟨fun ⟨s, hs, he⟩ => ?_, fun hs => ⟨_, hs, rfl⟩⟩
    rw [hs, hf s M.start (hss s (List.mem_of_head? hs)) h.start_mem he]
  simp only [DFA.numbers_iff, List.length_map, h.alphabet_eq, hhead, hfinal,
    hnext]

end Machine.Follows

/-! ## Sets of states with numbers -/

namespace NFA

variable {α : Type} [LinearOrd α] {A : NFA α}

/-- **The sets found are in their order of discovery.** -/
theorem discoveryOrder_subsets (hA : A.WellFormed) :
    A.machine.DiscoveryOrder A.subsets :=
  Machine.discoveryOrder_discover fun _ => mem_subsets_iff hA

/-- **The deterministic automaton numbers the sets found.** -/
theorem numbers_determinize (hA : A.WellFormed)
    (hfit : A.subsets.length ≤ UInt32.size) :
    A.determinize.Numbers A.machine A.subsets where
  alphabet_eq := rfl
  start_eq := rfl
  head?_eq := head?_discover _ _ _ _
  length_le := hfit
  mem_states_iff k := mem_states_determinize_iff hfit
  mem_final_iff k := by
    show k ∈ A.determinize.final ↔ ∃ S, _ ∧ A.isFinalSet S = true
    simp only [determinize, OrdSet.mem_ofList, List.mem_map, List.mem_filter,
      getElem?_subsets_eq_some_iff hfit, and_assoc, and_comm]
  target?_eq_some_iff k a j := by
    simp only [getElem?_subsets_eq_some_iff hfit]
    constructor
    · intro h
      obtain ⟨S, hS, T, ha, hnext, rfl, rfl⟩ := target?_determinize h
      exact ⟨ha, S, T, ⟨hS, rfl⟩,
        ⟨nextSet?_mem_subsets hA hS ha hnext, rfl⟩, hnext⟩
    · rintro ⟨ha, S, T, ⟨hS, rfl⟩, ⟨-, rfl⟩, hnext⟩
      have hnext : A.nextSet? S a = some T := hnext
      rw [target?_determinize_eq hfit hS ha, hnext, Option.map_some]

end NFA

end Recognizer
