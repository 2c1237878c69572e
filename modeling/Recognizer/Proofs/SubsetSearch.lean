import Recognizer.Proofs.Closure
import Recognizer.Proofs.Invariance
import Recognizer.Proofs.Numbering

/-!
# The queue of sets builds the deterministic automaton

The search for sets of states does several things in one turn: it looks numbers
up, gives numbers to new sets, adds states and adds transitions. Underneath it
is a search with a queue, and what it keeps beside the queue can be read off
from what that search has found (`NFA.Tracks`): the sets found are those with a
number, each has a state, and the transitions in the automaton are those that
were ever added. This is so between any two symbols that are followed.

Which number a new set gets depends only on how many sets were found before it,
and the queue finds sets in the order of the search by layers. So a set has from
the start the number by which it is known in the end (`NFA.number`), and numbers
that are given out do not change.

With that the search ends where the queue does, no set it looks up is without a
number, and the automaton it leaves is `NFA.determinize`. A set is popped once
and a symbol is followed from it once. As no two sets share a number, no two
transitions share source and symbol.
-/

namespace Recognizer

open StateTransition (eval mem_eval reaches_eval Respects tr_eval)

/-! ## Tables in which nothing is replaced -/

namespace DFA

variable {α : Type} [LinearOrd α]

/-- **A new state is added**, and nothing makes way for it. -/
theorem addState_eq {D : DFA α} {q : State} {accepts : Bool}
    (hfinal : q ∉ D.final) (htable : ∀ p a r, D.target? p a = some r → p ≠ q) :
    D.addState q accepts = { D with
      states := D.states.insert q
      final := if accepts then D.final.insert q else D.final } := by
  have herase : D.final.erase q = D.final :=
    Std.ExtTreeSet.ext_mem fun p => by
      rw [Std.ExtTreeSet.mem_erase, ne_eq, LinearOrd.compare_eq_iff]
      exact ⟨And.right, fun hp => ⟨fun e => hfinal (e ▸ hp), hp⟩⟩
  have hfilter : D.table.filter (fun k _ => k.1 ≠ q) = D.table :=
    OrdMap.filter_eq_self fun k r hr => by
      simpa using htable k.1 k.2 r hr
  rw [addState, herase, hfilter]

end DFA

namespace NFA

variable {α : Type} [LinearOrd α] {A : NFA α} {S T : States}
  {u v w : Search States} {s : SubsetSearch α}

/-! ## Numbers -/

/-- **The number of a set** in the deterministic automaton. -/
def number (A : NFA α) (S : States) : State :=
  (numberSubsets A.subsets).getD S 0

/-- **A set is numbered when it is found**: its number is how many sets come
before it. -/
theorem number_eq_of_prefix {Ss : List States} (h : Ss ++ [T] <+: A.subsets) :
    A.number T = UInt32.ofNat Ss.length := by
  refine getD_numberSubsets A.nodup_subsets ?_
  obtain ⟨Us, hUs⟩ := h
  rw [← hUs, List.append_assoc, List.getElem?_append_right (Nat.le_refl _),
    Nat.sub_self]
  rfl

/-! ## What the search keeps -/

/-- **The search for sets is a search with a queue**, and what it keeps beside
the queue follows from what is found. -/
structure Tracks (A : NFA α) (v : Search States) (s : SubsetSearch α) :
    Prop where
  queue_eq : s.queue = v.pending
  popped_eq : s.popped = v.popped
  mem_found_iff : ∀ S, S ∈ v.found ↔ S ∈ v.listed
  ids_iff : ∀ S k, s.ids[S]? = some k ↔ S ∈ v.found ∧ A.number S = k
  size_ids : s.ids.size = v.listed.length
  alphabet_eq : s.dfa.alphabet = A.alphabet
  start_eq : s.dfa.start = 0
  mem_states_iff : ∀ k, k ∈ s.dfa.states ↔ ∃ S ∈ v.found, A.number S = k
  mem_final_iff : ∀ k, k ∈ s.dfa.final ↔
    ∃ S ∈ v.found, A.isFinalSet S = true ∧ A.number S = k
  table_eq : s.dfa.table = OrdMap.ofPairs s.connected
  source_mem : ∀ x ∈ s.connected, x.1.1 ∈ s.dfa.states

/-- Before anything is found there is nothing to keep. -/
theorem tracks_empty (A : NFA α) :
    A.Tracks ⟨∅, [], []⟩ ⟨∅, [], ⟨A.alphabet, 0, ∅, ∅, ∅⟩, [], []⟩ := by
  constructor <;> simp [Search.listed, OrdMap.ofPairs]

section Fit

variable (hfit : A.subsets.length ≤ UInt32.size)
include hfit

/-- **No state has the number of a new set.** -/
theorem Tracks.number_not_mem_states (h : A.Tracks v s) (hT : T ∉ v.found)
    (hlisted : v.listed ++ [T] <+: A.subsets) : A.number T ∉ s.dfa.states := by
  intro hk
  obtain ⟨S, hS, he⟩ := (h.mem_states_iff _).mp hk
  have hmem : ∀ U ∈ v.listed ++ [T], U ∈ A.subsets := fun U hU =>
    hlisted.subset hU
  have hSmem := hmem S (List.mem_append.mpr
    (Or.inl ((h.mem_found_iff S).mp hS)))
  have hTmem := hmem T (List.mem_append.mpr (Or.inr List.mem_cons_self))
  exact hT (getD_numberSubsets_inj A.nodup_subsets hfit hSmem hTmem he ▸ hS)

/-- **A new set is found** and gets a state of its own. -/
theorem Tracks.discover (h : A.Tracks v s) (hT : T ∉ v.found)
    (hlisted : v.listed ++ [T] <+: A.subsets) :
    A.Tracks
      { v with found := v.found.insert T, pending := v.pending ++ [T] }
      { s with
        ids := s.ids.insert T (A.number T)
        queue := s.queue ++ [T]
        dfa := s.dfa.addState (A.number T) (A.isFinalSet T) } := by
  have hstate := h.number_not_mem_states hfit hT hlisted
  have hfinal : A.number T ∉ s.dfa.final := fun hk => by
    obtain ⟨S, hS, -, he⟩ := (h.mem_final_iff _).mp hk
    exact hstate ((h.mem_states_iff _).mpr ⟨S, hS, he⟩)
  have htable : ∀ q a r, s.dfa.target? q a = some r → q ≠ A.number T := by
    intro q a r hr he
    rw [DFA.target?, h.table_eq] at hr
    have hsource := h.source_mem _ (OrdMap.mem_of_getElem?_ofPairs hr)
    exact hstate (he ▸ hsource)
  rw [DFA.addState_eq hfinal htable]
  have hlisted' : Search.listed
      { v with found := v.found.insert T, pending := v.pending ++ [T] }
        = v.listed ++ [T] := (List.append_assoc ..).symm
  constructor
  case queue_eq => exact congrArg (· ++ [T]) h.queue_eq
  case popped_eq => exact h.popped_eq
  case mem_found_iff =>
    intro S
    rw [hlisted', OrdSet.mem_insert, h.mem_found_iff, List.mem_append,
      List.mem_singleton, or_comm]
  case ids_iff =>
    intro S k
    rw [OrdMap.getElem?_insert, OrdSet.mem_insert]
    by_cases hS : T = S
    · simp [hS]
    · simp [hS, Ne.symm hS, h.ids_iff]
  case size_ids =>
    have hids : s.ids.contains T ≠ true := fun hT' => by
      obtain ⟨k, hk⟩ := Option.isSome_iff_exists.mp
        (Std.ExtTreeMap.mem_iff_isSome_getElem?.mp hT')
      exact hT ((h.ids_iff T k).mp hk).1
    rw [hlisted', Std.ExtTreeMap.size_insert, if_neg hids, h.size_ids,
      List.length_append, List.length_singleton]
  case alphabet_eq => exact h.alphabet_eq
  case start_eq => exact h.start_eq
  case mem_states_iff =>
    intro k
    simp only [OrdSet.mem_insert, h.mem_states_iff, or_and_right, exists_or,
      exists_eq_left, @eq_comm _ k]
  case mem_final_iff =>
    intro k
    simp only [OrdSet.mem_insert, or_and_right, exists_or, exists_eq_left,
      ← h.mem_final_iff]
    split
    · next hfin => simp [hfin]
    · next hfin => simp [hfin]
  case table_eq => exact h.table_eq
  case source_mem =>
    exact fun x hx => OrdSet.mem_insert.mpr (Or.inr (h.source_mem x hx))

/-- **Looking a set up gives it its number**, and takes it in if it is new. -/
theorem Tracks.idOf (h : A.Tracks v s)
    (hlisted : (v.takeIn .queue T).listed <+: A.subsets) :
    (s.idOf A T).1 = A.number T ∧
      A.Tracks (v.takeIn .queue T) (s.idOf A T).2 ∧
      (s.idOf A T).2.connected = s.connected := by
  unfold Search.takeIn at hlisted ⊢
  split at hlisted
  · next hT =>
    rw [if_pos hT]
    have hid : s.ids[T]? = some (A.number T) := (h.ids_iff T _).mpr ⟨hT, rfl⟩
    rw [SubsetSearch.idOf, hid]
    exact ⟨rfl, h, rfl⟩
  · next hT =>
    rw [if_neg hT]
    have hid : s.ids[T]? = none := by
      rw [Option.eq_none_iff_forall_ne_some]
      exact fun k hk => hT ((h.ids_iff T k).mp hk).1
    rw [Search.listed, Discipline.add, ← List.append_assoc] at hlisted
    have hnumber : UInt32.ofNat s.ids.size = A.number T := by
      rw [h.size_ids, number_eq_of_prefix hlisted]
      rfl
    rw [SubsetSearch.idOf, hid]
    dsimp only
    rw [hnumber]
    exact ⟨rfl, h.discover hfit hT hlisted, rfl⟩

/-- The set a run starts from is found first. -/
theorem tracks_start :
    A.Tracks (.start .queue [A.startSet]) (.start A) := by
  have hfirst : [] ++ [A.startSet] <+: A.subsets := by
    obtain ⟨Ss, hSs⟩ := List.head?_eq_some_iff.mp
      (head?_discover (Nat.pow 2 A.size) A.successors A.startSet [])
    exact ⟨Ss, hSs.symm⟩
  have h := A.tracks_empty.discover hfit (T := A.startSet)
    Std.ExtTreeSet.not_mem_empty hfirst
  rwa [show A.number A.startSet = 0 from A.getD_startSet] at h

end Fit

/-- **A transition from a state is added**, and all others stay. -/
theorem Tracks.connect (h : A.Tracks v s) (hS : S ∈ v.found) (a : α)
    (r : State) : A.Tracks v (s.connect (A.number S) a r) := by
  have hstate : A.number S ∈ s.dfa.states :=
    (h.mem_states_iff _).mpr ⟨S, hS, rfl⟩
  rw [SubsetSearch.connect, DFA.connect, if_pos hstate]
  refine { h with table_eq := ?_, source_mem := fun x hx => ?_ }
  · show s.dfa.table.insert (A.number S, a) r = _
    rw [h.table_eq, OrdMap.ofPairs, OrdMap.ofPairs, List.foldl_append]
    rfl
  · rcases List.mem_append.mp hx with hx | hx
    · exact h.source_mem x hx
    · rw [List.mem_singleton.mp hx]
      exact hstate

/-! ## From turn to turn -/

/-- The transitions to the sets that symbols lead to. -/
def connections (A : NFA α) (S : States) (as : List α) :
    List ((State × α) × State) :=
  as.filterMap fun a =>
    (A.nextSet? S a).map fun T => ((A.number S, a), A.number T)

section Fit

variable (hfit : A.subsets.length ≤ UInt32.size)
include hfit

/-- **Following symbols** from a set takes in the sets they lead to, and adds a
transition to each of these. -/
theorem Tracks.foldl_follow {as : List α} (h : A.Tracks v s) (hS : S ∈ v.found)
    (hlisted : ((as.filterMap (A.nextSet? S)).foldl (Search.takeIn .queue)
      v).listed <+: A.subsets) :
    A.Tracks ((as.filterMap (A.nextSet? S)).foldl (Search.takeIn .queue) v)
        (as.foldl (SubsetSearch.follow A S (A.number S)) s) ∧
      (as.foldl (SubsetSearch.follow A S (A.number S)) s).connected
        = s.connected ++ A.connections S as := by
  induction as generalizing v s with
  | nil => exact ⟨h, (List.append_nil _).symm⟩
  | cons a as ih =>
    rw [List.foldl_cons, SubsetSearch.follow, connections]
    cases hT : A.nextSet? S a with
    | none =>
      rw [List.filterMap_cons_none hT] at hlisted ⊢
      rw [List.filterMap_cons_none (by rw [hT]; rfl)]
      exact ih h hS hlisted
    | some T =>
      rw [List.filterMap_cons_some hT, List.foldl_cons] at hlisted ⊢
      rw [List.filterMap_cons_some (by rw [hT]; rfl)]
      obtain ⟨hid, htracks, hconnected⟩ := h.idOf hfit
        ((Search.listed_prefix_foldl_takeIn _ _).trans hlisted)
      have hS' := Search.mem_found_takeIn (d := .queue) T hS
      obtain ⟨hfold, hadded⟩ :=
        ih (htracks.connect hS' a (A.number T)) hS' hlisted
      dsimp only
      rw [hid]
      refine ⟨hfold, hadded.trans ?_⟩
      rw [SubsetSearch.connect, hconnected, List.append_assoc,
        List.singleton_append]
      rfl

/-- **One turn of the search for sets is one of the search with a queue.** The
set that is popped has a number. -/
theorem Tracks.turn (h : A.Tracks v s)
    (hconnected : s.connected
      = v.popped.flatMap (A.subsetTransitions (numberSubsets A.subsets)))
    (hw : v.turn .queue A.successors = some w)
    (hlisted : w.listed <+: A.subsets) :
    ∃ t, A.subsetTurn (.ok s) = some (.ok t) ∧ A.Tracks w t ∧
      t.connected
        = w.popped.flatMap (A.subsetTransitions (numberSubsets A.subsets)) := by
  obtain ⟨S, rest, hpending, rfl⟩ := Search.turn_eq_some_iff_foldl.mp hw
  have hS : S ∈ v.found := (h.mem_found_iff S).mpr
    (List.mem_append.mpr (Or.inr (hpending ▸ List.mem_cons_self)))
  have hid : s.ids[S]? = some (A.number S) := (h.ids_iff S _).mpr ⟨hS, rfl⟩
  have hpop : A.Tracks
      { v with pending := rest, popped := v.popped ++ [S] }
      { s with queue := rest, popped := s.popped ++ [S] } :=
    { h with
      queue_eq := rfl
      popped_eq := congrArg (· ++ [S]) h.popped_eq
      mem_found_iff := by
        rw [Search.listed_pop hpending]
        exact h.mem_found_iff
      size_ids := by
        rw [Search.listed_pop hpending]
        exact h.size_ids }
  obtain ⟨hfold, hadded⟩ := hpop.foldl_follow hfit hS hlisted
  refine ⟨_, ?_, hfold, hadded.trans ?_⟩
  · rw [subsetTurn, h.queue_eq, hpending]
    dsimp only
    rw [hid]
  · rw [Search.foldl_takeIn, List.flatMap_append, List.flatMap_singleton,
      hconnected]
    rfl

end Fit

/-! ## The end -/

/-- **The queue runs empty**, and the sets popped are those of the search by
layers, in its order. -/
theorem exists_mem_eval_queue (hA : A.WellFormed) :
    ∃ v, v ∈ eval (Search.turn .queue A.successors)
        (.start .queue [A.startSet]) ∧
      v.Sound A.successors [A.startSet] ∧ v.popped = A.subsets := by
  have hall : ∀ S, Reachable A.successors [A.startSet] S → S ∈ A.subsets :=
    fun S hS => (mem_subsets_iff hA).mpr hS
  obtain ⟨v, hv, hsound⟩ := Search.exists_mem_eval_start (d := .queue)
    (List.nodup_singleton A.startSet) hall
  exact ⟨v, hv, hsound, Search.popped_eq_discover hall hv hsound⟩

/-- What is kept when all sets are found is the deterministic automaton. -/
theorem Tracks.dfa_eq (h : A.Tracks v s)
    (hfound : ∀ S, S ∈ v.found ↔ S ∈ A.subsets)
    (hconnected : s.connected
      = A.subsets.flatMap (A.subsetTransitions (numberSubsets A.subsets))) :
    s.dfa = A.determinize := by
  refine DFA.ext_target h.alphabet_eq h.start_eq (fun k => ?_) (fun k => ?_)
    fun q a r => ?_
  · rw [h.mem_states_iff, determinize, OrdSet.mem_ofList, List.mem_map]
    simp only [hfound]
    rfl
  · rw [h.mem_final_iff, determinize, OrdSet.mem_ofList, List.mem_map]
    simp only [hfound, List.mem_filter, and_assoc]
    rfl
  · rw [DFA.target?, h.table_eq, hconnected]
    rfl

/-- **The search for sets ends where the queue does**, at the deterministic
automaton. -/
theorem exists_mem_eval_subsetTurn (hA : A.WellFormed)
    (hfit : A.subsets.length ≤ UInt32.size) :
    ∃ s : SubsetSearch α, .ok s ∈ eval A.subsetTurn (.ok (.start A)) ∧
      s.queue = [] ∧ s.popped = A.subsets ∧
      (∀ S k, s.ids[S]? = some k ↔ S ∈ A.subsets ∧ A.number S = k) ∧
      s.connected
        = A.subsets.flatMap (A.subsetTransitions (numberSubsets A.subsets)) ∧
      s.dfa = A.determinize := by
  obtain ⟨u, hu, hsound, hpopped⟩ := exists_mem_eval_queue hA
  have hpending := Search.pending_of_mem_eval hu
  -- a search that will come to the same end is followed turn by turn
  have hrespects : Respects (Search.turn .queue A.successors) A.subsetTurn
      fun v r => u ∈ eval (Search.turn .queue A.successors) v ∧
        ∃ s, r = .ok s ∧ A.Tracks v s ∧ s.connected
          = v.popped.flatMap (A.subsetTransitions (numberSubsets A.subsets)) := by
    rintro v _ ⟨hv, s, rfl, htracks, hconnected⟩
    cases hw : v.turn .queue A.successors with
    | none =>
      have hqueue : s.queue = [] :=
        htracks.queue_eq.trans (Search.turn_eq_none_iff.mp hw)
      show A.subsetTurn (.ok s) = none
      rw [subsetTurn, hqueue]
    | some w =>
      rw [reaches_eval (.single hw)] at hv
      have hlisted : w.listed <+: A.subsets := by
        rw [← hpopped, ← Search.listed_eq_popped hpending]
        exact Search.listed_prefix_of_reaches (mem_eval.mp hv).1
      obtain ⟨t, ht, htracks, hconnected⟩ :=
        htracks.turn hfit hconnected hw hlisted
      exact ⟨.ok t, ⟨hv, t, rfl, htracks, hconnected⟩, .single ht⟩
  obtain ⟨_, ⟨-, s, rfl, htracks, hconnected⟩, hs⟩ :=
    tr_eval hrespects ⟨hu, _, rfl, tracks_start hfit, rfl⟩ hu
  have hfound : ∀ S, S ∈ u.found ↔ S ∈ A.subsets := fun S => by
    rw [← hsound.mem_popped_iff hpending, hpopped]
  rw [hpopped] at hconnected
  refine ⟨s, hs, htracks.queue_eq.trans hpending,
    htracks.popped_eq.trans hpopped, fun S k => ?_, hconnected,
    htracks.dfa_eq hfound hconnected⟩
  rw [htracks.ids_iff, hfound]

/-! ## What the search comes to -/

/-- There are no more sets than sets of states that are not empty. -/
theorem length_subsets_le (hA : A.WellFormed) :
    A.subsets.length ≤ 2 ^ A.size - 1 := by
  have hempty : (∅ : States) ∉ A.subsets := fun h => by
    obtain ⟨⟨q, hq⟩, -⟩ := (mem_subsets_iff_exists_after hA).mp h
    exact Std.ExtTreeSet.not_mem_empty hq
  have hsub : ∅ :: A.subsets ⊆ allSubsets A.states.toList := by
    refine List.cons_subset.mpr ⟨mem_allSubsets fun q hq => ?_, fun S hS =>
      mem_allSubsets fun q hq => Std.ExtTreeSet.mem_toList.mpr ?_⟩
    · exact absurd hq Std.ExtTreeSet.not_mem_empty
    · exact subset_states_of_mem_subsets hA hS q hq
  have hle := ((List.nodup_cons.mpr ⟨hempty, A.nodup_subsets⟩).subperm
    hsub).length_le
  rw [List.length_cons, length_allSubsets, Std.ExtTreeSet.length_toList] at hle
  exact Nat.le_sub_one_of_lt hle

section Fit

variable (hfit : A.subsets.length ≤ UInt32.size)
include hfit

/-- The deterministic automaton has a state for each set. -/
theorem size_determinize : A.determinize.size = A.subsets.length := by
  have hnodup : (A.subsets.map A.number).Nodup :=
    A.nodup_subsets.map_on fun S hS T hT he =>
      getD_numberSubsets_inj A.nodup_subsets hfit hS hT he
  rw [← List.length_map (f := A.number), ← OrdSet.size_ofList_of_nodup hnodup]
  rfl

/-- **Every state of the deterministic automaton can be reached.** -/
theorem exists_walk_of_mem_states (hA : A.WellFormed) {k : State}
    (hk : k ∈ A.determinize.states) :
    ∃ x, A.determinize.machine.walk 0 x = some k := by
  rw [mem_states_determinize_iff hfit] at hk
  have hS := List.getElem?_eq_getElem hk
  obtain ⟨-, x, -, hafter⟩ :=
    (mem_subsets_iff_exists_after hA).mp (List.mem_of_getElem? hS)
  exact ⟨x, (walk_determinize_eq_some_iff hfit hA).mpr ⟨_, hS, hafter⟩⟩

/-- **A transition is added once** for a source and a symbol. -/
theorem nodup_sources_subsetTransitions :
    ((A.subsets.flatMap (A.subsetTransitions (numberSubsets A.subsets))).map
      Prod.fst).Nodup := by
  rw [List.map_flatMap, List.nodup_flatMap]
  have hkey : ∀ {S k a}, (k, a) ∈ (A.subsetTransitions
      (numberSubsets A.subsets) S).map Prod.fst → A.number S = k := by
    intro S k a h
    obtain ⟨x, hx, hk⟩ := List.mem_map.mp h
    obtain ⟨b, -, hb⟩ := List.mem_filterMap.mp hx
    obtain ⟨T, -, rfl⟩ := Option.map_eq_some_iff.mp hb
    exact congrArg Prod.fst hk
  refine ⟨fun S _ => ?_, A.nodup_subsets.imp_of_mem fun hS hT hne => ?_⟩
  · -- the transitions of one set have different symbols
    rw [subsetTransitions, List.map_filterMap]
    refine (OrdSet.nodup_toList A.alphabet).filterMap fun a b x ha hb => ?_
    simp only [Option.map_map, Option.mem_def, Option.map_eq_some_iff] at ha hb
    obtain ⟨_, -, rfl⟩ := ha
    obtain ⟨_, -, hb⟩ := hb
    exact (congrArg Prod.snd hb).symm
  · -- the transitions of different sets have different sources
    rintro ⟨k, a⟩ hk hk'
    exact hne (getD_numberSubsets_inj A.nodup_subsets hfit hS hT
      ((hkey hk).trans (hkey hk').symm))

end Fit

/-- **Both searches look at each item once.**

From any set of ids the stack of the closure runs empty, every state that was
found has been popped once, and these are the closure. If there are numbers for
the sets of states, the queue runs empty too: every set that has a number has
been popped once, and none was looked up that had no number. What is left is the
deterministic automaton. It has fewer states than there are sets of states, and
each can be reached from state zero. No two of the transitions that were added
have one source and one symbol, and all of them are still there. -/
theorem searches_look_at_each_item_once (hA : A.WellFormed) :
    (∀ T : States, ∃ s, s ∈ eval A.closingTurn (.start .stack T.toList) ∧
      s.pending = [] ∧ s.popped.Nodup ∧ (∀ q, q ∈ s.popped ↔ q ∈ s.found) ∧
      s.found = A.silentClosure T) ∧
    (A.subsets.length ≤ UInt32.size →
      ∃ s : SubsetSearch α, .ok s ∈ eval A.subsetTurn (.ok (.start A)) ∧
        s.queue = [] ∧ s.popped.Nodup ∧ (∀ S, S ∈ s.popped ↔ S ∈ s.ids) ∧
        s.dfa = A.determinize ∧ s.dfa.size ≤ 2 ^ A.size - 1 ∧
        (∀ k ∈ s.dfa.states, ∃ w, s.dfa.machine.walk 0 w = some k) ∧
        (s.connected.map Prod.fst).Nodup ∧
        ∀ q a r, ((q, a), r) ∈ s.connected ↔ s.dfa.target? q a = some r) := by
  refine ⟨exists_mem_eval_closingTurn hA, fun hfit => ?_⟩
  obtain ⟨s, hs, hqueue, hpopped, hids, hconnected, hdfa⟩ :=
    exists_mem_eval_subsetTurn hA hfit
  have hnodup := nodup_sources_subsetTransitions hfit
  refine ⟨s, hs, hqueue, hpopped ▸ A.nodup_subsets, fun S => ?_, hdfa, ?_, ?_,
    hconnected ▸ hnodup, fun q a r => ?_⟩
  · rw [hpopped, Std.ExtTreeMap.mem_iff_isSome_getElem?,
      Option.isSome_iff_exists]
    simp [hids]
  · rw [hdfa, size_determinize hfit]
    exact length_subsets_le hA
  · rw [hdfa]
    exact fun k => exists_walk_of_mem_states hfit hA
  · rw [hdfa, hconnected, ← OrdMap.getElem?_ofPairs_eq_some_iff hnodup]
    rfl

/-- Four states give at most fifteen sets, and two of them are found. -/
theorem searches_look_at_each_item_once_roundabout :
    roundabout.WellFormed ∧ roundabout.subsets.length ≤ UInt32.size ∧
      (∃ s, s ∈ eval roundabout.closingTurn (.start .stack [9, 42]) ∧
        s.popped.Nodup ∧ ∀ q, q ∈ s.popped ↔ q = 7 ∨ q = 9 ∨ q = 42) ∧
      ∃ s : SubsetSearch Char,
        .ok s ∈ eval roundabout.subsetTurn (.ok (.start roundabout)) ∧
          s.queue = [] ∧ s.popped.Nodup ∧ s.dfa = roundabout.determinize ∧
          s.dfa.size ≤ 15 ∧ ((1, '1'), 0) ∈ s.connected := by
  have hfit : roundabout.subsets.length ≤ UInt32.size := by decide
  obtain ⟨hclosing, hsubsets⟩ :=
    searches_look_at_each_item_once wellFormed_roundabout
  refine ⟨wellFormed_roundabout, hfit, ?_, ?_⟩
  · obtain ⟨s, hs, -, hnodup, hpopped, hfound⟩ :=
      hclosing (OrdSet.ofList [9, 42])
    refine ⟨s, hs, hnodup, fun q => ?_⟩
    have hclosure : roundabout.silentClosure (OrdSet.ofList [9, 42])
        = OrdSet.ofList [7, 9, 42] := by decide
    rw [hpopped, hfound, hclosure]
    simp
  · obtain ⟨s, hs, hqueue, hnodup, -, hdfa, hsize, -, -, hconnected⟩ :=
      hsubsets hfit
    refine ⟨s, hs, hqueue, hnodup, hdfa, hsize, (hconnected 1 '1' 0).mpr ?_⟩
    rw [hdfa]
    decide

end NFA

end Recognizer
