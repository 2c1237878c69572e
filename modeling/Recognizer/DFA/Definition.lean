import Recognizer.DFA.Basic
import Recognizer.Definition

/-!
# Deterministic automata from definitions

A list of transitions describes a deterministic automaton when it is
consistent, as for a nondeterministic one, and moreover holds no silent
transition and no two transitions that leave one state under one symbol
for different targets. A transition that is repeated as it is does no
harm.

The transitions are entered one by one, and the first that cannot be
entered is the fault.
-/

namespace Recognizer.DFA

variable {α : Type} [LinearOrd α]

/-- **Enters a transition on a symbol.** The symbol is looked at first,
then the target, then the source, and last whether the state already
goes elsewhere under the symbol. -/
def enter (D : DFA α) (q : State) (a : α) (r : State) :
    Except (Fault α) (DFA α) :=
  if a ∉ D.alphabet then .error (.outsideSymbol a)
  else if r ∉ D.states then .error (.missingState r)
  else if q ∉ D.states then .error (.missingState q)
  else if (D.target? q a).any (· ≠ r) then .error (.ambiguousTransition q a)
  else .ok { D with table := D.table.insert (q, a) r }

/-- Enters a transition, which must not be silent. -/
def enterEdge (D : DFA α) (e : Edge (Label α)) : Except (Fault α) (DFA α) :=
  match e.label with
  | .silent => .error (.silentTransition e.source)
  | .symbol a => D.enter e.source a e.target

/-- **A transition can be entered** when nothing in it is missing and the
state does not go elsewhere under the symbol. -/
theorem enter_eq_ok_iff {D E : DFA α} {q r : State} {a : α} :
    D.enter q a r = .ok E ↔
      a ∈ D.alphabet ∧ r ∈ D.states ∧ q ∈ D.states ∧
        (∀ p, D.target? q a = some p → p = r) ∧
        E = { D with table := D.table.insert (q, a) r } := by
  have hany : (D.target? q a).any (· ≠ r) = true ↔
      ¬ ∀ p, D.target? q a = some p → p = r := by
    cases D.target? q a <;> simp
  unfold enter
  by_cases ha : a ∈ D.alphabet
  · by_cases hr : r ∈ D.states
    · by_cases hq : q ∈ D.states
      · by_cases hp : ∀ p, D.target? q a = some p → p = r
        · rw [if_neg (Decidable.not_not.mpr ha),
            if_neg (Decidable.not_not.mpr hr),
            if_neg (Decidable.not_not.mpr hq),
            if_neg fun h => hany.mp h hp, Except.ok.injEq]
          exact ⟨fun h => ⟨ha, hr, hq, hp, h.symm⟩, fun h => h.2.2.2.2.symm⟩
        · rw [if_neg (Decidable.not_not.mpr ha),
            if_neg (Decidable.not_not.mpr hr),
            if_neg (Decidable.not_not.mpr hq), if_pos (hany.mpr hp)]
          exact ⟨nofun, fun h => absurd h.2.2.2.1 hp⟩
      · simp [ha, hr, hq]
    · simp [ha, hr]
  · simp [ha]

/-- **What is entered is added**, and nothing else changes. -/
theorem target?_enter_eq_some_iff {D E : DFA α} {q r : State} {a : α}
    (h : D.enter q a r = .ok E) {p s : State} {b : α} :
    E.target? p b = some s ↔
      (⟨p, b, s⟩ : Edge α) = ⟨q, a, r⟩ ∨ D.target? p b = some s := by
  obtain ⟨-, -, -, hagree, rfl⟩ := enter_eq_ok_iff.mp h
  rw [target?, OrdMap.getElem?_insert_eq_some_iff hagree]
  simp only [Prod.mk.injEq, Edge.mk.injEq, and_assoc, target?]

theorem wellFormed_enter {D E : DFA α} (hD : D.WellFormed) {q r : State}
    {a : α} (h : D.enter q a r = .ok E) : E.WellFormed := by
  have htarget := fun p b s => target?_enter_eq_some_iff h (p := p) (b := b)
    (s := s)
  obtain ⟨ha, hr, hq, -, rfl⟩ := enter_eq_ok_iff.mp h
  refine ⟨hD.start_mem, hD.final_mem, fun p b s hs => ?_, fun p b s hs => ?_,
    fun p b s hs => ?_⟩
  all_goals obtain ⟨⟨⟩⟩ | hs := (htarget p b s).mp hs
  · exact hq
  · exact hD.source_mem p b s hs
  · exact hr
  · exact hD.target_mem p b s hs
  · exact ha
  · exact hD.symbol_mem p b s hs

/-- **The automaton with these states and transitions.** A state listed
again replaces the former. -/
def assemble (S : Alphabet α) (start : State)
    (states : List (State × Bool)) (transitions : List (Edge (Label α))) :
    Except (Fault α) (DFA α) :=
  if start ∉ flaggedIds states then .error (.missingState start)
  else transitions.foldlM enterEdge {
    alphabet := S
    start := start
    states := flaggedIds states
    final := flaggedFinal states
    table := ∅ }

/-- **The automaton that a definition describes.** -/
def ofDefinition (d : Definition α α) : Except (Fault α) (DFA α) :=
  match d.strayAccept with
  | some q => .error (.missingState q)
  | none => assemble d.alphabet d.start d.flaggedStates
      (d.transitions.map (Edge.mapLabel .symbol))

/-- **Transitions are entered one after the other**, and none of them is
silent. -/
theorem foldlM_enterEdge_cons_eq_ok_iff {e : Edge (Label α)}
    {es : List (Edge (Label α))} {D E : DFA α} :
    (e :: es).foldlM enterEdge D = .ok E ↔
      ∃ a D', e.label = .symbol a ∧ D.enter e.source a e.target = .ok D' ∧
        es.foldlM enterEdge D' = .ok E := by
  rw [List.foldlM_cons]
  obtain ⟨q, l, r⟩ := e
  cases l with
  | silent => exact ⟨nofun, nofun⟩
  | symbol a =>
    show (D.enter q a r).bind _ = _ ↔ _
    cases hD' : D.enter q a r with
    | error f => simp [hD', Except.bind]
    | ok D' => simp [hD', Except.bind]

theorem wellFormed_foldlM_enterEdge {transitions : List (Edge (Label α))}
    {D E : DFA α} (hD : D.WellFormed)
    (h : transitions.foldlM enterEdge D = .ok E) : E.WellFormed := by
  induction transitions generalizing D with
  | nil =>
    cases h
    exact hD
  | cons e es ih =>
    obtain ⟨a, D', -, hD', h⟩ := foldlM_enterEdge_cons_eq_ok_iff.mp h
    exact ih (wellFormed_enter hD hD') h

/-- **Entering transitions adds them to the table** and changes nothing
else. -/
theorem exists_table_of_foldlM_enterEdge {es : List (Edge (Label α))}
    {D E : DFA α} (h : es.foldlM enterEdge D = .ok E) :
    ∃ table : OrdMap (State × α) State, E = { D with table := table } ∧
      ∀ q a r, table[(q, a)]? = some r ↔
        ⟨q, .symbol a, r⟩ ∈ es ∨ D.target? q a = some r := by
  induction es generalizing D with
  | nil =>
    cases h
    exact ⟨E.table, rfl, by simp [target?]⟩
  | cons e es ih =>
    obtain ⟨b, D', hlabel, hD', h⟩ := foldlM_enterEdge_cons_eq_ok_iff.mp h
    obtain ⟨table, rfl, htable⟩ := ih h
    obtain ⟨-, -, -, -, hD''⟩ := enter_eq_ok_iff.mp hD'
    refine ⟨table, by rw [hD''], fun q a r => ?_⟩
    have he : (⟨q, .symbol a, r⟩ : Edge (Label α)) = e ↔
        (⟨q, a, r⟩ : Edge α) = ⟨e.source, b, e.target⟩ := by
      cases e
      cases hlabel
      simp only [Edge.mk.injEq, Label.symbol.injEq]
    rw [htable, target?_enter_eq_some_iff hD', List.mem_cons, he, or_assoc,
      or_left_comm]

/-- What is made from transitions is well-formed. -/
theorem wellFormed_of_assemble {S : Alphabet α} {start : State}
    {states : List (State × Bool)} {transitions : List (Edge (Label α))}
    {D : DFA α} (h : assemble S start states transitions = .ok D) :
    D.WellFormed := by
  unfold assemble at h
  split at h
  · exact absurd h nofun
  · next hs =>
    refine wellFormed_foldlM_enterEdge ⟨Decidable.not_not.mp hs,
      fun _ => flaggedFinal_subset, ?_, ?_, ?_⟩ h
    all_goals
      intro q a r hr
      simp [target?] at hr

/-- **What a definition describes has the parts of the definition.** -/
theorem exists_table_of_ofDefinition {d : Definition α α} {D : DFA α}
    (h : ofDefinition d = .ok D) :
    ∃ table : OrdMap (State × α) State,
      D = ⟨d.alphabet, d.start, d.states, d.accept, table⟩ ∧
      ∀ q a r, table[(q, a)]? = some r ↔ ⟨q, a, r⟩ ∈ d.transitions := by
  unfold ofDefinition assemble at h
  split at h
  · exact absurd h nofun
  · next hstray =>
    split at h
    · exact absurd h nofun
    · obtain ⟨table, rfl, htable⟩ := exists_table_of_foldlM_enterEdge h
      refine ⟨table, ?_, fun q a r => ?_⟩
      · rw [Definition.flaggedIds_flaggedStates,
          Definition.flaggedFinal_flaggedStates
            (Definition.strayAccept_eq_none_iff.mp hstray)]
      · rw [htable, List.mem_map]
        constructor
        · rintro (⟨e, he, hlabel⟩ | h)
          · cases hlabel
            exact he
          · simp [target?] at h
        · exact fun h => Or.inl ⟨_, h, rfl⟩

/-- What a definition describes is well-formed. -/
theorem wellFormed_of_ofDefinition {d : Definition α α} {D : DFA α}
    (h : ofDefinition d = .ok D) : D.WellFormed := by
  unfold ofDefinition at h
  split at h
  · exact absurd h nofun
  · exact wellFormed_of_assemble h

/-- **The definition of an automaton**, its transitions in order. -/
def toDefinition (D : DFA α) : Definition α α where
  alphabet := D.alphabet
  states := D.states
  start := D.start
  accept := D.final
  transitions := D.edgeList

/-- **Transitions of one automaton can all be entered**, in any order and on
top of any others of it. -/
theorem exists_foldlM_enterEdge_eq_ok {D : DFA α} (hD : D.WellFormed)
    {es : List (Edge α)}
    (hes : ∀ e ∈ es, D.target? e.source e.label = some e.target)
    (table : OrdMap (State × α) State)
    (htable : ∀ q a r, table[(q, a)]? = some r → D.target? q a = some r) :
    ∃ E, (es.map (Edge.mapLabel .symbol)).foldlM enterEdge
      { D with table := table } = .ok E := by
  induction es generalizing table with
  | nil => exact ⟨_, rfl⟩
  | cons e es ih =>
    have he := hes e List.mem_cons_self
    have hagree : ∀ p, table[(e.source, e.label)]? = some p → p = e.target :=
      fun p hp => Option.some.inj ((htable _ _ _ hp).symm.trans he)
    have henter : enter { D with table := table } e.source e.label e.target
        = .ok { D with
          table := table.insert (e.source, e.label) e.target } :=
      enter_eq_ok_iff.mpr ⟨hD.symbol_mem _ _ _ he, hD.target_mem _ _ _ he,
        hD.source_mem _ _ _ he, hagree, rfl⟩
    obtain ⟨E, hE⟩ := ih (fun f hf => hes f (List.mem_cons_of_mem _ hf))
      (table.insert (e.source, e.label) e.target) fun q a r h => by
        obtain ⟨⟨⟩⟩ | h := (target?_enter_eq_some_iff henter).mp h
        · exact he
        · exact htable q a r h
    exact ⟨E, foldlM_enterEdge_cons_eq_ok_iff.mpr
      ⟨e.label, _, rfl, henter, hE⟩⟩

/-- **A well-formed automaton is described by its definition**, so that
well-formed automata are exactly those that definitions describe. -/
theorem ofDefinition_toDefinition {D : DFA α} (hD : D.WellFormed) :
    ofDefinition D.toDefinition = .ok D := by
  have hstray : D.toDefinition.strayAccept = none :=
    Definition.strayAccept_eq_none_iff.mpr hD.final_mem
  obtain ⟨E, hfold⟩ := exists_foldlM_enterEdge_eq_ok hD
    (fun e (he : e ∈ D.edgeList) => mem_edgeList.mp he) ∅ (by simp)
  have hE : ofDefinition D.toDefinition = .ok E := by
    unfold ofDefinition assemble
    rw [hstray, Definition.flaggedIds_flaggedStates,
      Definition.flaggedFinal_flaggedStates hD.final_mem]
    exact (if_neg (Decidable.not_not.mpr hD.start_mem)).trans hfold
  -- the table is told by its transitions
  obtain ⟨table, rfl, htable⟩ := exists_table_of_ofDefinition hE
  have heq : table = D.table :=
    Std.ExtTreeMap.ext_getElem? fun ⟨q, a⟩ => by
      ext r
      rw [htable]
      exact mem_edgeList
  rw [hE, heq]
  rfl

end Recognizer.DFA
