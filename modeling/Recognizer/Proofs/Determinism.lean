import Mathlib.Data.List.Induction
import Recognizer.DFA.Definition
import Recognizer.Proofs.Consistency

/-!
# Which tables are deterministic

A deterministic automaton is put together like any other one, and moreover no
two of its transitions may be at odds (`Tabular`). This is found out on the way:
a transition is compared with what the table holds by then. But the table holds
just the transitions entered before (`DFA.Lists`), so that to be refused by the
table is to be refused in view of them (`DFA.enterEdge_eq_error_iff`). Hence a
list of transitions is refused where the first of its transitions is
(`FirstRefused`), it is accepted if it is a deterministic table
(`DFA.exists_foldlM_enterEdge_eq_ok_iff`), and then it comes to the same in
every order.
-/

namespace Recognizer

/-- **Transitions at odds** leave one state under one label for different
targets. -/
def Edge.Rivals {ℓ : Type} (d e : Edge ℓ) : Prop :=
  d.source = e.source ∧ d.label = e.label ∧ d.target ≠ e.target

theorem Edge.Rivals.symm {ℓ : Type} {d e : Edge ℓ} (h : d.Rivals e) :
    e.Rivals d :=
  ⟨h.1.symm, h.2.1.symm, h.2.2.symm⟩

/-- **The flag that counts is the last one.** -/
theorem mem_flaggedFinal_iff_split {states : List (State × Bool)} {q : State} :
    q ∈ flaggedFinal states ↔
      ∃ u v, states = u ++ (q, true) :: v ∧ ∀ x ∈ v, x.1 ≠ q := by
  simp only [mem_flaggedFinal, List.find?_eq_some_iff_append,
    decide_eq_true_eq, Bool.not_eq_true', decide_eq_false_iff_not,
    List.reverse_eq_append_iff, List.reverse_cons, List.append_assoc,
    List.singleton_append]
  constructor
  · rintro ⟨⟨p, b⟩, ⟨hq, u, v, hsplit, hu⟩, hb⟩
    obtain rfl : p = q := hq
    obtain rfl : b = true := hb
    exact ⟨v.reverse, u.reverse, hsplit, fun x hx =>
      hu x (List.mem_reverse.mp hx)⟩
  · rintro ⟨u, v, hsplit, hv⟩
    exact ⟨(q, true), ⟨rfl, v.reverse, u.reverse, by simpa using hsplit,
      fun x hx => hv x (List.mem_reverse.mp hx)⟩, rfl⟩

variable {α : Type} [LinearOrd α]

/-! ## Refused transitions -/

section Refusals

variable {S : Alphabet α} {states : States} {es u : List (Edge (Label α))}
  {e : Edge (Label α)} {f : Fault α}

/-- **A list of transitions that makes a deterministic table.** -/
structure Tabular (S : Alphabet α) (states : States)
    (es : List (Edge (Label α))) : Prop where
  not_silent : ∀ e ∈ es, e.label ≠ .silent
  fits : ∀ e ∈ es, e.Fits S states
  not_rivals : ∀ d ∈ es, ∀ e ∈ es, ¬ d.Rivals e

/-- **Why a transition is refused** after others: because it is silent, because
it misses something, or because one of them is at odds with it. -/
inductive Refused (S : Alphabet α) (states : States)
    (u : List (Edge (Label α))) (e : Edge (Label α)) : Fault α → Prop where
  | silent : e.label = .silent →
      Refused S states u e (.silentTransition e.source)
  | misses {f : Fault α} : e.label ≠ .silent → e.Misses S states f →
      Refused S states u e f
  | rival {a : α} {d : Edge (Label α)} : e.label = .symbol a →
      e.Fits S states → d ∈ u → d.Rivals e →
      Refused S states u e (.ambiguousTransition e.source a)

/-- **The first refused transition**, and why it is. -/
def FirstRefused (S : Alphabet α) (states : States)
    (es : List (Edge (Label α))) (f : Fault α) : Prop :=
  ∃ u e v, es = u ++ e :: v ∧ Refused S states u e f ∧
    ∀ u' d v' g, u = u' ++ d :: v' → ¬ Refused S states u' d g

theorem Edge.fits_or_misses : e.Fits S states ∨ ∃ f, e.Misses S states f := by
  cases h : NFA.edgeFault S states e with
  | none => exact Or.inl (NFA.edgeFault_eq_none_iff_fits.mp h)
  | some f => exact Or.inr ⟨f, NFA.edgeFault_eq_some_iff.mp h⟩

theorem Edge.Fits.not_misses (h : e.Fits S states) : ¬ e.Misses S states f := by
  intro hmiss
  rw [← NFA.edgeFault_eq_none_iff_fits, NFA.edgeFault_eq_some_iff.mpr hmiss] at h
  exact absurd h nofun

/-- A silent transition is refused for being silent. -/
theorem refused_silent_iff {q r : State} :
    Refused S states u ⟨q, .silent, r⟩ f ↔ f = .silentTransition q := by
  constructor
  · intro h
    cases h with
    | silent => rfl
    | misses hsymbol => exact absurd rfl hsymbol
    | rival hlabel => exact absurd hlabel nofun
  · rintro rfl
    exact .silent rfl

/-- Any other one is refused for what it misses, or else for a rival. -/
theorem refused_symbol_iff {q r : State} {a : α} :
    Refused S states u ⟨q, .symbol a, r⟩ f ↔
      Edge.Misses S states ⟨q, .symbol a, r⟩ f ∨
        Edge.Fits S states ⟨q, .symbol a, r⟩ ∧
          (∃ d ∈ u, d.Rivals ⟨q, .symbol a, r⟩) ∧
          f = .ambiguousTransition q a := by
  constructor
  · intro h
    cases h with
    | silent hsilent => exact absurd hsilent nofun
    | misses _ hmiss => exact Or.inl hmiss
    | rival hlabel hfits hd hrival =>
      cases hlabel
      exact Or.inr ⟨hfits, ⟨_, hd, hrival⟩, rfl⟩
  · rintro (hmiss | ⟨hfits, ⟨d, hd, hrival⟩, rfl⟩)
    · exact .misses nofun hmiss
    · exact .rival rfl hfits hd hrival

theorem Tabular.of_subset (h : Tabular S states es) (hu : ∀ d ∈ u, d ∈ es) :
    Tabular S states u :=
  ⟨fun d hd => h.not_silent d (hu d hd), fun d hd => h.fits d (hu d hd),
    fun d hd c hc => h.not_rivals d (hu d hd) c (hu c hc)⟩

/-- **One more transition** makes a deterministic table with those before if it
is not refused after them. -/
theorem tabular_concat_iff : Tabular S states (u ++ [e]) ↔
    Tabular S states u ∧ ∀ f, ¬ Refused S states u e f := by
  have hlast : e ∈ u ++ [e] := List.mem_append_right u List.mem_cons_self
  constructor
  · intro h
    refine ⟨h.of_subset fun d hd => List.mem_append_left [e] hd,
      fun f hrefused => ?_⟩
    cases hrefused with
    | silent hsilent => exact h.not_silent e hlast hsilent
    | misses _ hmiss => exact (h.fits e hlast).not_misses hmiss
    | rival _ _ hd hrival =>
      exact h.not_rivals _ (List.mem_append_left [e] hd) e hlast hrival
  · rintro ⟨h, haccepted⟩
    -- for whatever the last one might lack there is a refusal
    have hsymbol : e.label ≠ .silent := fun hsilent =>
      haccepted _ (.silent hsilent)
    have hfits : e.Fits S states := Edge.fits_or_misses.resolve_right
      fun ⟨f, hmiss⟩ => haccepted f (.misses hsymbol hmiss)
    have hrival : ∀ d ∈ u, ¬ d.Rivals e := fun d hd hrival => by
      cases hlabel : e.label with
      | silent => exact hsymbol hlabel
      | symbol a => exact haccepted _ (.rival hlabel hfits hd hrival)
    refine ⟨?_, ?_, ?_⟩ <;>
      simp only [List.forall_mem_append, List.forall_mem_singleton]
    · exact ⟨h.not_silent, hsymbol⟩
    · exact ⟨h.fits, hfits⟩
    · exact ⟨fun d hd => ⟨h.not_rivals d hd, hrival d hd⟩,
        fun d hd hde => hrival d hd hde.symm, fun hee => hee.2.2 rfl⟩

/-- A deterministic table is one of which no transition is refused. -/
theorem tabular_iff_forall_split : Tabular S states es ↔
    ∀ u e v f, es = u ++ e :: v → ¬ Refused S states u e f := by
  constructor
  · rintro h u e v f rfl
    have hprefix : Tabular S states (u ++ [e]) := h.of_subset fun d hd => by
      simp only [List.mem_append, List.mem_cons, List.not_mem_nil,
        or_false] at hd ⊢
      exact hd.imp_right Or.inl
    exact (tabular_concat_iff.mp hprefix).2 f
  · intro h
    induction es using List.reverseRecOn with
    | nil => exact ⟨nofun, nofun, nofun⟩
    | append_singleton es e ih =>
      refine tabular_concat_iff.mpr ⟨ih fun u d v f hsplit => ?_,
        fun f => h es e [] f rfl⟩
      exact h u d (v ++ [e]) f (by rw [hsplit, List.append_assoc,
        List.cons_append])

end Refusals

/-- **A loop fails where its first step does.** -/
theorem foldlM_eq_error_iff {σ β ε : Type} {f : σ → β → Except ε σ}
    {xs : List β} {s : σ} {err : ε} :
    xs.foldlM f s = .error err ↔ ∃ u x v t, xs = u ++ x :: v ∧
      u.foldlM f s = .ok t ∧ f t x = .error err := by
  induction xs generalizing s with
  | nil => exact ⟨nofun, fun ⟨_, _, _, _, h, _⟩ => by simp at h⟩
  | cons y ys ih =>
    rw [List.foldlM_cons]
    cases hy : f s y with
    | error err' =>
      constructor
      · rintro ⟨⟩
        exact ⟨[], y, ys, s, rfl, rfl, hy⟩
      · rintro ⟨_ | ⟨z, u⟩, x, v, t, ⟨⟩, hu, hx⟩
        · cases hu
          exact hy.symm.trans hx
        · rw [List.foldlM_cons, hy] at hu
          exact absurd hu nofun
    | ok s' =>
      refine Iff.trans (ih (s := s')) ?_
      constructor
      · rintro ⟨u, x, v, t, rfl, hu, hx⟩
        exact ⟨y :: u, x, v, t, rfl, by rwa [List.foldlM_cons, hy], hx⟩
      · rintro ⟨_ | ⟨z, u⟩, x, v, t, ⟨⟩, hu, hx⟩
        · cases hu
          exact absurd (hy.symm.trans hx) nofun
        · rw [List.foldlM_cons, hy] at hu
          exact ⟨u, x, v, t, rfl, hu, hx⟩

namespace DFA

variable {S : Alphabet α} {start : State} {states : List (State × Bool)}
  {es es' u : List (Edge (Label α))} {e : Edge (Label α)} {f : Fault α}
  {D E : DFA α}

/-! ## The table on the way -/

/-- **The table holds just these transitions.** -/
def Lists (D : DFA α) (es : List (Edge (Label α))) : Prop :=
  ∀ q a r, D.target? q a = some r ↔ ⟨q, .symbol a, r⟩ ∈ es

/-- What was entered is what the table holds. -/
theorem Lists.foldlM_enterEdge (hD : D.Lists [])
    (h : es.foldlM enterEdge D = .ok E) :
    E.Lists es ∧ ∃ table, E = { D with table := table } := by
  obtain ⟨table, rfl, htable⟩ := exists_table_of_foldlM_enterEdge h
  refine ⟨fun q a r => (htable q a r).trans ?_, table, rfl⟩
  rw [hD q a r]
  exact or_iff_left nofun

/-- A transition on a symbol is checked like any other one, and then against the
table. -/
theorem enterEdge_symbol_eq (D : DFA α) (q r : State) (a : α) :
    D.enterEdge ⟨q, .symbol a, r⟩ =
      match NFA.edgeFault D.alphabet D.states ⟨q, .symbol a, r⟩ with
      | some fault => .error fault
      | none =>
        if (D.target? q a).any (· ≠ r) then .error (.ambiguousTransition q a)
        else .ok { D with table := D.table.insert (q, a) r } := by
  show D.enter q a r = _
  unfold enter NFA.edgeFault
  by_cases ha : a ∈ D.alphabet
  · have hsymbol : D.alphabet.firstOutside (Label.symbol a).toOption.toList
        = none := Label.firstOutside_eq_none_iff.mpr fun b hb => by
      cases hb
      exact ha
    rw [if_neg (Decidable.not_not.mpr ha)]
    simp only [hsymbol]
    by_cases hr : r ∈ D.states <;> by_cases hq : q ∈ D.states <;>
      simp only [hr, hq, not_true, not_false_iff, if_true, if_false]
  · have hsymbol : D.alphabet.firstOutside (Label.symbol a).toOption.toList
        = some a := Label.firstOutside_eq_some_iff.mpr ⟨rfl, ha⟩
    rw [if_pos ha]
    simp only [hsymbol]

/-- A target in the table is at odds with a transition if it is another one. -/
theorem Lists.any_target?_iff (hD : D.Lists u) {q r : State} {a : α} :
    (D.target? q a).any (· ≠ r) = true ↔
      ∃ d ∈ u, d.Rivals ⟨q, .symbol a, r⟩ := by
  rw [Option.any_eq_true]
  constructor
  · rintro ⟨p, hp, hpr⟩
    exact ⟨_, (hD q a p).mp hp, rfl, rfl, of_decide_eq_true hpr⟩
  · rintro ⟨⟨p, l, s⟩, hd, ⟨⟩, ⟨⟩, hsr⟩
    exact ⟨s, (hD q a s).mpr hd, decide_eq_true hsr⟩

/-- **The table refuses what is refused after its transitions.** -/
theorem enterEdge_eq_error_iff (hD : D.Lists u) :
    D.enterEdge e = .error f ↔ Refused D.alphabet D.states u e f := by
  obtain ⟨q, l, r⟩ := e
  cases l with
  | silent =>
    rw [refused_silent_iff]
    exact ⟨fun h => (Except.error.inj h).symm,
      fun h => congrArg Except.error h.symm⟩
  | symbol a =>
    rw [refused_symbol_iff, ← hD.any_target?_iff, enterEdge_symbol_eq,
      ← NFA.edgeFault_eq_some_iff, ← NFA.edgeFault_eq_none_iff_fits]
    cases NFA.edgeFault D.alphabet D.states ⟨q, .symbol a, r⟩ with
    | some g => simp
    | none =>
      cases (D.target? q a).any (· ≠ r) <;> simp [eq_comm]

/-- Entering a transition succeeds unless it is refused. -/
theorem exists_enterEdge_eq_ok_iff (hD : D.Lists u) :
    (∃ E, D.enterEdge e = .ok E) ↔
      ∀ f, ¬ Refused D.alphabet D.states u e f := by
  simp only [← enterEdge_eq_error_iff hD]
  cases D.enterEdge e with
  | ok E => exact ⟨fun _ => nofun, fun _ => ⟨E, rfl⟩⟩
  | error f => exact ⟨nofun, fun h => absurd rfl (h f)⟩

/-- **Just the deterministic tables can be entered.** -/
theorem exists_foldlM_enterEdge_eq_ok_iff (hD : D.Lists []) :
    (∃ E, es.foldlM enterEdge D = .ok E) ↔ Tabular D.alphabet D.states es := by
  induction es using List.reverseRecOn with
  | nil => exact ⟨fun _ => ⟨nofun, nofun, nofun⟩, fun _ => ⟨D, rfl⟩⟩
  | append_singleton es e ih =>
    rw [tabular_concat_iff, ← ih, List.foldlM_append]
    cases hes : es.foldlM enterEdge D with
    | error f => exact ⟨nofun, nofun⟩
    | ok D' =>
      -- the last transition is checked against the others, all in the table
      obtain ⟨hlists, table, rfl⟩ := hD.foldlM_enterEdge hes
      have hstep := exists_enterEdge_eq_ok_iff (e := e) hlists
      simp only [List.foldlM_cons, List.foldlM_nil, bind_pure]
      exact hstep.trans (and_iff_right ⟨_, rfl⟩).symm

/-- **Otherwise the fault is why the first transition is refused.** -/
theorem foldlM_enterEdge_eq_error_iff (hD : D.Lists []) :
    es.foldlM enterEdge D = .error f ↔
      FirstRefused D.alphabet D.states es f := by
  rw [foldlM_eq_error_iff, FirstRefused]
  constructor
  · rintro ⟨u, e, v, t, hsplit, hu, he⟩
    have htabular := (exists_foldlM_enterEdge_eq_ok_iff hD).mp ⟨t, hu⟩
    obtain ⟨hlists, table, rfl⟩ := hD.foldlM_enterEdge hu
    exact ⟨u, e, v, hsplit, (enterEdge_eq_error_iff hlists).mp he,
      tabular_iff_forall_split.mp htabular⟩
  · rintro ⟨u, e, v, hsplit, he, hu⟩
    obtain ⟨t, ht⟩ := (exists_foldlM_enterEdge_eq_ok_iff hD).mpr
      (tabular_iff_forall_split.mpr hu)
    obtain ⟨hlists, table, rfl⟩ := hD.foldlM_enterEdge ht
    exact ⟨u, e, v, _, hsplit, ht, (enterEdge_eq_error_iff hlists).mpr he⟩

/-! ## What a list of transitions comes to -/

/-- Before any transition is entered. -/
def bare (S : Alphabet α) (start : State) (states : List (State × Bool)) :
    DFA α where
  alphabet := S
  start := start
  states := flaggedIds states
  final := flaggedFinal states
  table := ∅

theorem lists_bare (S : Alphabet α) (start : State)
    (states : List (State × Bool)) : (bare S start states).Lists [] := by
  intro q a r
  simp [bare, target?]

/-- **An automaton with these parts**: a state accepts by its last flag, and
every transition is listed once. -/
structure Tabulates (D : DFA α) (S : Alphabet α) (start : State)
    (states : List (State × Bool)) (es : List (Edge (Label α))) : Prop where
  alphabet_eq : D.alphabet = S
  start_eq : D.start = start
  mem_states_iff : ∀ q, q ∈ D.states ↔ ∃ b, (q, b) ∈ states
  isFinal_iff : ∀ q, D.isFinal q = true ↔
    ∃ u v, states = u ++ (q, true) :: v ∧ ∀ x ∈ v, x.1 ≠ q
  mem_edgeList_iff : ∀ e, e ∈ D.edgeList ↔ e.mapLabel .symbol ∈ es
  nodup_edgeList : D.edgeList.Nodup

/-- No transition is listed twice. -/
theorem nodup_edgeList (D : DFA α) : D.edgeList.Nodup :=
  D.sorted_edgeList.imp fun {e d} hlt heq => by
    rw [LinearOrd.compare_eq_iff.mpr (by rw [heq])] at hlt
    exact absurd hlt nofun

/-- **There is one automaton with given parts.** The order of the transitions is
no part of it. -/
theorem Tabulates.unique (hD : D.Tabulates S start states es)
    (hE : E.Tabulates S start states es') (hmem : ∀ e, e ∈ es ↔ e ∈ es') :
    D = E := by
  refine ext_target (hD.alphabet_eq.trans hE.alphabet_eq.symm)
    (hD.start_eq.trans hE.start_eq.symm)
    (fun q => (hD.mem_states_iff q).trans (hE.mem_states_iff q).symm)
    (fun q => ?_) fun q a r => ?_
  · simpa [isFinal] using (hD.isFinal_iff q).trans (hE.isFinal_iff q).symm
  · have hD' := mem_edgeList.symm.trans (hD.mem_edgeList_iff ⟨q, a, r⟩)
    have hE' := mem_edgeList.symm.trans (hE.mem_edgeList_iff ⟨q, a, r⟩)
    exact hD'.trans ((hmem _).trans hE'.symm)

theorem exists_assemble_eq_ok_iff :
    (∃ D, assemble S start states es = .ok D) ↔
      start ∈ flaggedIds states ∧ Tabular S (flaggedIds states) es := by
  unfold assemble
  by_cases hstart : start ∈ flaggedIds states
  · rw [if_neg (Decidable.not_not.mpr hstart), and_iff_right hstart]
    exact exists_foldlM_enterEdge_eq_ok_iff (lists_bare S start states)
  · rw [if_pos hstart]
    exact ⟨nofun, fun h => absurd h.1 hstart⟩

theorem tabulates_of_assemble (h : assemble S start states es = .ok D) :
    D.Tabulates S start states es := by
  unfold assemble at h
  split at h
  · exact absurd h nofun
  · obtain ⟨hlists, table, rfl⟩ := (lists_bare S start states).foldlM_enterEdge h
    refine ⟨rfl, rfl, fun _ => mem_flaggedIds, fun q => ?_, fun e => ?_,
      nodup_edgeList _⟩
    · rw [← mem_flaggedFinal_iff_split]
      exact Std.ExtTreeSet.contains_iff_mem
    · rw [mem_edgeList, hlists]
      rfl

theorem assemble_eq_error_iff : assemble S start states es = .error f ↔
    (start ∉ flaggedIds states ∧ f = .missingState start) ∨
      start ∈ flaggedIds states ∧ FirstRefused S (flaggedIds states) es f := by
  unfold assemble
  by_cases hstart : start ∈ flaggedIds states
  · rw [if_neg (Decidable.not_not.mpr hstart), and_iff_right hstart,
      or_iff_right fun h => h.1 hstart]
    exact foldlM_enterEdge_eq_error_iff (lists_bare S start states)
  · rw [if_pos hstart, and_iff_right hstart,
      or_iff_left fun h => hstart h.1, Except.error.injEq, eq_comm]

/-- **The order of the transitions does not matter**, nor how often they are
given, where they are accepted. -/
theorem assemble_eq_ok_of_mem_iff (h : assemble S start states es = .ok D)
    (hmem : ∀ e, e ∈ es' ↔ e ∈ es) : assemble S start states es' = .ok D := by
  obtain ⟨hstart, htabular⟩ := exists_assemble_eq_ok_iff.mp ⟨D, h⟩
  obtain ⟨E, hE⟩ := exists_assemble_eq_ok_iff.mpr
    ⟨hstart, htabular.of_subset fun e he => (hmem e).mp he⟩
  rw [hE, (tabulates_of_assemble hE).unique (tabulates_of_assemble h) hmem]

/-- **What a list of transitions comes to.** It is an automaton just if the
start is a state and the list is a deterministic table, with the transitions of
the list in whatever order they are given. Otherwise the fault is the start, or
else why the first refused transition is refused. -/
theorem assemble_decides_determinism (S : Alphabet α) (start : State)
    (states : List (State × Bool)) (es : List (Edge (Label α))) :
    ((∃ D, assemble S start states es = .ok D) ↔
      start ∈ flaggedIds states ∧ Tabular S (flaggedIds states) es) ∧
    (∀ D, assemble S start states es = .ok D →
      D.Tabulates S start states es ∧
      ∀ es', (∀ e, e ∈ es' ↔ e ∈ es) → assemble S start states es' = .ok D) ∧
    ∀ f, assemble S start states es = .error f ↔
      (start ∉ flaggedIds states ∧ f = .missingState start) ∨
        start ∈ flaggedIds states ∧ FirstRefused S (flaggedIds states) es f :=
  ⟨exists_assemble_eq_ok_iff, fun _ h => ⟨tabulates_of_assemble h,
    fun _ => assemble_eq_ok_of_mem_iff h⟩, fun _ => assemble_eq_error_iff⟩

/-- A cycle on two symbols, one of its transitions given twice. -/
def cycle : List (Edge (Label Char)) :=
  [⟨3, .symbol 'a', 5⟩, ⟨5, .symbol 'b', 3⟩, ⟨3, .symbol 'a', 5⟩]

/-- The cycle comes to the same the other way round, and its start accepts by the
second of its flags. With another target for a symbol it is refused, before the
silent transition is looked at. -/
theorem assemble_decides_determinism_cycle :
    (∃ D, assemble (.ofList ['a', 'b']) 3 [(3, false), (5, false), (3, true)]
        cycle = .ok D ∧
      assemble (.ofList ['a', 'b']) 3 [(3, false), (5, false), (3, true)]
        cycle.tail = .ok D ∧
      D.isFinal 3 = true ∧ D.isFinal 5 = false ∧ D.edgeList.Nodup) ∧
    assemble (.ofList ['a', 'b']) 3 [(3, false), (5, false), (3, true)]
        (cycle ++ [⟨3, .symbol 'a', 3⟩, ⟨5, .silent, 3⟩])
      = .error (.ambiguousTransition 3 'a') := by
  have hstart : 3 ∈ flaggedIds [(3, false), (5, false), (3, true)] := by simp
  have htabular : Tabular (.ofList ['a', 'b'])
      (flaggedIds [(3, false), (5, false), (3, true)]) cycle := by
    refine ⟨by simp [cycle], ?_, by simp [cycle, Edge.Rivals]⟩
    simp only [cycle, List.forall_mem_cons]
    refine ⟨?_, ?_, ?_, nofun⟩ <;> constructor <;> simp
  obtain ⟨hok, hparts, -⟩ := assemble_decides_determinism (.ofList ['a', 'b']) 3
    [(3, false), (5, false), (3, true)] cycle
  obtain ⟨-, -, hfault⟩ := assemble_decides_determinism (.ofList ['a', 'b']) 3
    [(3, false), (5, false), (3, true)]
    (cycle ++ [⟨3, .symbol 'a', 3⟩, ⟨5, .silent, 3⟩])
  obtain ⟨D, hD⟩ := hok.mpr ⟨hstart, htabular⟩
  obtain ⟨hD', horder⟩ := hparts D hD
  refine ⟨⟨D, hD, horder _ (by simp [cycle, or_comm]), ?_, ?_,
    hD'.nodup_edgeList⟩, (hfault _).mpr (Or.inr ⟨hstart, cycle, _, _, rfl,
      .rival rfl ?_ (d := ⟨3, .symbol 'a', 5⟩) ?_ ?_, ?_⟩)⟩
  · exact (hD'.isFinal_iff 3).mpr ⟨[(3, false), (5, false)], [], rfl, nofun⟩
  · rw [Bool.eq_false_iff, ne_eq, hD'.isFinal_iff]
    rintro ⟨u, v, hsplit, -⟩
    have hmem : (5, true) ∈ u ++ (5, true) :: v := by simp
    rw [← hsplit] at hmem
    exact absurd hmem (by simp)
  · constructor <;> simp
  · simp [cycle]
  · simp [Edge.Rivals]
  · exact tabular_iff_forall_split.mp htabular

end DFA

end Recognizer
