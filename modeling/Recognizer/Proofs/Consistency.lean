import Recognizer.NFA.Assembly
import Recognizer.NFA.Definition

/-!
# Which definitions describe an automaton

A definition describes an automaton if it speaks of nothing that is missing
(`Definition.Consistent`), and if it does not, the fault is the first thing that
is missing (`Definition.FirstFault`). Which thing comes first depends on the
order of the transitions. The automaton does not, and neither does it depend on
how often a transition is given (`NFA.eq_iff_agrees`).

All this is plain where an automaton is made as a whole. It is put together
piece by piece, though: a state is added in place of a former one with its id,
and a transition is checked and then entered. What keeps the order out of the
result is that a check looks at the alphabet and at the states only, and no
transition changes those. So transitions are entered up to the first one at
fault, whatever was entered before it, and it comes to the same
(`NFA.Stepwise.assemble_eq`).
-/

namespace Recognizer

variable {α : Type} [LinearOrd α]

/-- **The first member found is the least one** that satisfies the condition. -/
theorem OrdSet.find?_toList_eq_some_iff {s : OrdSet α} {p : α → Bool} {x : α} :
    s.toList.find? p = some x ↔ x ∈ s ∧ p x = true ∧
      ∀ y ∈ s, compare y x = .lt → p y = false := by
  have hascend : s.toList.Pairwise fun y z => compare y z = .lt :=
    Std.ExtTreeSet.ordered_toList
  simp only [List.find?_eq_some_iff_append, Bool.not_eq_true']
  constructor
  · rintro ⟨hx, u, v, hlist, hu⟩
    rw [hlist] at hascend
    have hmem : ∀ y, y ∈ s ↔ y ∈ u ++ x :: v := fun y => by
      rw [← hlist, Std.ExtTreeSet.mem_toList]
    refine ⟨(hmem x).mpr (by simp), hx, fun y hy hlt => ?_⟩
    -- a smaller member stands before the one found
    rcases List.mem_append.mp ((hmem y).mp hy) with hyu | hyv
    · exact hu y hyu
    · rcases List.mem_cons.mp hyv with rfl | hyv
      · exact absurd (hlt.symm.trans (LinearOrd.compare_eq_iff.mpr rfl)) nofun
      · have hgt := List.rel_of_pairwise_cons
          (List.pairwise_append.mp hascend).2.1 hyv
        rw [@Std.OrientedCmp.eq_swap _ compare, hgt] at hlt
        exact absurd hlt nofun
  · rintro ⟨hmem, hx, hleast⟩
    obtain ⟨u, v, hlist⟩ :=
      List.append_of_mem (Std.ExtTreeSet.mem_toList.mpr hmem)
    rw [hlist] at hascend
    refine ⟨hx, u, v, hlist, fun y hy => hleast y ?_ ?_⟩
    · rw [← Std.ExtTreeSet.mem_toList, hlist]
      exact List.mem_append_left _ hy
    · exact (List.pairwise_append.mp hascend).2.2 y hy x List.mem_cons_self

/-! ## What may be missing -/

section Missing

variable {S : Alphabet α} {states : States} {e : Edge (Label α)}

/-- **A transition between these states**, silent or on a symbol of the
alphabet. -/
structure Edge.Fits (S : Alphabet α) (states : States)
    (e : Edge (Label α)) : Prop where
  symbol_mem : ∀ a, e.label = .symbol a → a ∈ S
  source_mem : e.source ∈ states
  target_mem : e.target ∈ states

/-- **The first thing that a transition speaks of and that is missing**: its
symbol, then its target, then its source. -/
inductive Edge.Misses (S : Alphabet α) (states : States)
    (e : Edge (Label α)) : Fault α → Prop where
  | symbol {a : α} : e.label = .symbol a → a ∉ S →
      Misses S states e (.outsideSymbol a)
  | target : (∀ a, e.label = .symbol a → a ∈ S) → e.target ∉ states →
      Misses S states e (.missingState e.target)
  | source : (∀ a, e.label = .symbol a → a ∈ S) → e.target ∈ states →
      e.source ∉ states → Misses S states e (.missingState e.source)

theorem Label.firstOutside_eq_some_iff {l : Label α} {a : α} :
    S.firstOutside l.toOption.toList = some a ↔ l = .symbol a ∧ a ∉ S := by
  cases l with
  | silent => exact ⟨nofun, fun h => absurd h.1 nofun⟩
  | symbol b =>
    rw [Alphabet.firstOutside_eq_some_iff]
    constructor
    · rintro ⟨ha, u, v, huv, -⟩
      have hlist : [b] = u ++ a :: v := huv
      have hba : a ∈ [b] := hlist ▸ List.mem_append_right u List.mem_cons_self
      exact ⟨congrArg symbol (List.mem_singleton.mp hba).symm, ha⟩
    · rintro ⟨⟨⟩, ha⟩
      exact ⟨ha, [], [], rfl, nofun⟩

theorem Label.firstOutside_eq_none_iff {l : Label α} :
    S.firstOutside l.toOption.toList = none ↔ ∀ a, l = .symbol a → a ∈ S := by
  rw [Alphabet.firstOutside_eq_none_iff]
  cases l <;> simp [toOption]

theorem NFA.edgeFault_eq_none_iff_fits :
    edgeFault S states e = none ↔ e.Fits S states := by
  rw [edgeFault_eq_none_iff]
  exact ⟨fun ⟨hsymbol, htarget, hsource⟩ => ⟨hsymbol, hsource, htarget⟩,
    fun h => ⟨h.symbol_mem, h.target_mem, h.source_mem⟩⟩

/-- **What is wrong with a transition** is the first thing that it misses. -/
theorem NFA.edgeFault_eq_some_iff {f : Fault α} :
    edgeFault S states e = some f ↔ e.Misses S states f := by
  constructor
  · intro h
    unfold edgeFault at h
    split at h
    · next a ha =>
      cases h
      obtain ⟨hlabel, hsymbol⟩ := Label.firstOutside_eq_some_iff.mp ha
      exact .symbol hlabel hsymbol
    · next hnone =>
      have hsymbol := Label.firstOutside_eq_none_iff.mp hnone
      split at h
      · next htarget =>
        cases h
        exact .target hsymbol htarget
      · next htarget =>
        split at h
        · next hsource =>
          cases h
          exact .source hsymbol (Decidable.not_not.mp htarget) hsource
        · exact absurd h nofun
  · intro h
    unfold edgeFault
    cases h with
    | symbol hlabel hsymbol =>
      rw [Label.firstOutside_eq_some_iff.mpr ⟨hlabel, hsymbol⟩]
    | target hsymbol htarget =>
      rw [Label.firstOutside_eq_none_iff.mpr hsymbol]
      exact if_pos htarget
    | source hsymbol htarget hsource =>
      rw [Label.firstOutside_eq_none_iff.mpr hsymbol]
      exact (if_neg (Decidable.not_not.mpr htarget)).trans (if_pos hsource)

end Missing

namespace Definition

variable {d d' : Definition α (Label α)} {q : State}

/-- **A definition that speaks of nothing that is missing.** -/
structure Consistent (d : Definition α (Label α)) : Prop where
  accept_mem : ∀ q ∈ d.accept, q ∈ d.states
  start_mem : d.start ∈ d.states
  fits : ∀ e ∈ d.transitions, e.Fits d.alphabet d.states

/-- **The first fault of a definition**: its least accepting state that is no
state, then its start, then what the first transition that does not fit
misses. -/
inductive FirstFault (d : Definition α (Label α)) : Fault α → Prop where
  | accept {q : State} : q ∈ d.accept → q ∉ d.states →
      (∀ p ∈ d.accept, p ∉ d.states → q ≤ p) → FirstFault d (.missingState q)
  | start : (∀ q ∈ d.accept, q ∈ d.states) → d.start ∉ d.states →
      FirstFault d (.missingState d.start)
  | transition {u v : List (Edge (Label α))} {e : Edge (Label α)}
      {f : Fault α} : (∀ q ∈ d.accept, q ∈ d.states) → d.start ∈ d.states →
      d.transitions = u ++ e :: v → (∀ c ∈ u, c.Fits d.alphabet d.states) →
      e.Misses d.alphabet d.states f → FirstFault d f

/-- **Definitions with the same parts**, their transitions in whatever order and
however often given. -/
structure Agrees {ℓ : Type} (d d' : Definition α ℓ) : Prop where
  alphabet_eq : d.alphabet = d'.alphabet
  states_eq : d.states = d'.states
  start_eq : d.start = d'.start
  accept_eq : d.accept = d'.accept
  mem_transitions_iff : ∀ e, e ∈ d.transitions ↔ e ∈ d'.transitions

/-- **The least accepting state that is no state.** -/
theorem strayAccept_eq_some_iff :
    d.strayAccept = some q ↔ q ∈ d.accept ∧ q ∉ d.states ∧
      ∀ p ∈ d.accept, p ∉ d.states → q ≤ p := by
  unfold strayAccept
  rw [OrdSet.find?_toList_eq_some_iff]
  simp only [decide_eq_true_eq, decide_eq_false_iff_not, Decidable.not_not,
    Std.compare_eq_lt, ← UInt32.not_lt]
  refine and_congr_right fun _ => and_congr_right fun _ =>
    forall₂_congr fun p _ => ?_
  exact ⟨fun h hp hlt => hp (h hlt), fun h hlt =>
    Decidable.byContradiction fun hp => h hp hlt⟩

end Definition

/-! ## Put together step by step -/

namespace NFA.Stepwise

/-- Enters a transition, unless something is wrong with it. -/
def enter (A : NFA α) (e : Edge (Label α)) : Except (Fault α) (NFA α) :=
  match edgeFault A.alphabet A.states e with
  | some fault => .error fault
  | none => .ok { A with edges := A.edges.insert e }

/-- Adds states one after the other, and then enters transitions one after the
other. -/
def assemble (S : Alphabet α) (start : State) (states : List (State × Bool))
    (transitions : List (Edge (Label α))) : Except (Fault α) (NFA α) :=
  let A := states.foldl (fun A x => A.addState x.1 x.2) ⟨S, start, ∅, ∅, ∅⟩
  if start ∉ A.states then .error (.missingState start)
  else transitions.foldlM enter A

/-- The automaton that a definition describes, put together step by step. -/
def ofDefinition (d : Definition α (Label α)) : Except (Fault α) (NFA α) :=
  match d.strayAccept with
  | some q => .error (.missingState q)
  | none => assemble d.alphabet d.start d.flaggedStates d.transitions

/-- **Transitions are entered up to the first one at fault.** None of them
changes what the others are checked against. -/
theorem foldlM_enter (transitions : List (Edge (Label α))) (A : NFA α) :
    transitions.foldlM enter A
      = match transitions.findSome? (edgeFault A.alphabet A.states) with
        | some fault => .error fault
        | none =>
          .ok { A with edges := transitions.foldl EdgeSet.insert A.edges } := by
  induction transitions generalizing A with
  | nil => rfl
  | cons e es ih =>
    rw [List.foldlM_cons, List.findSome?_cons]
    cases he : edgeFault A.alphabet A.states e with
    | some fault => simp only [enter, he, bind, Except.bind]
    | none =>
      simp only [enter, he, bind, Except.bind]
      exact ih { A with edges := A.edges.insert e }

/-- **Added states** are those listed, and accept by their last flags. -/
theorem foldl_addState (S : Alphabet α) (start : State)
    (states : List (State × Bool)) (ids final : States) :
    states.foldl (fun (A : NFA α) x => A.addState x.1 x.2)
        ⟨S, start, ids, final, ∅⟩
      = ⟨S, start, states.foldl (fun s x => s.insert x.1) ids,
          states.foldl
            (fun s x => if x.2 then s.insert x.1 else s.erase x.1) final,
          ∅⟩ := by
  induction states generalizing ids final with
  | nil => rfl
  | cons x xs ih =>
    -- a new state loses no edge, since there is none yet
    have hedges : (∅ : EdgeSet (Label α)).filter (fun e => e.source ≠ x.1) = ∅ :=
      EdgeSet.ext fun e => by simp
    rw [List.foldl_cons, List.foldl_cons, List.foldl_cons, ← ih, ← hedges]
    rfl

/-- **Step by step it comes to the same**, the fault included. -/
theorem assemble_eq (S : Alphabet α) (start : State)
    (states : List (State × Bool)) (transitions : List (Edge (Label α))) :
    assemble S start states transitions
      = NFA.assemble S start states transitions := by
  have hids : states.foldl (fun s x => s.insert x.1) ∅ = flaggedIds states := by
    rw [flaggedIds, OrdSet.ofList, List.foldl_map]
  unfold assemble NFA.assemble
  rw [foldl_addState, hids]
  dsimp only
  rw [foldlM_enter]
  rfl

theorem ofDefinition_eq (d : Definition α (Label α)) :
    ofDefinition d = NFA.ofDefinition d := by
  unfold ofDefinition NFA.ofDefinition
  cases d.strayAccept with
  | some q => rfl
  | none => exact assemble_eq d.alphabet d.start d.flaggedStates d.transitions

end NFA.Stepwise

/-! ## What a definition comes to -/

namespace NFA

variable {d d' : Definition α (Label α)} {A B : NFA α} {f : Fault α}

/-- **Just the consistent definitions describe automata.** -/
theorem exists_ofDefinition_eq_ok_iff :
    (∃ A, ofDefinition d = .ok A) ↔ d.Consistent := by
  simp only [ofDefinition_eq_ok_iff, edgeFault_eq_none_iff_fits]
  constructor
  · rintro ⟨A, haccept, hstart, hfits, -⟩
    exact ⟨haccept, hstart, hfits⟩
  · rintro ⟨haccept, hstart, hfits⟩
    exact ⟨_, haccept, hstart, hfits, rfl⟩

/-- Among transitions it is the first one at fault that counts. -/
theorem assemble_eq_error_iff {S : Alphabet α} {start : State}
    {states : List (State × Bool)} {transitions : List (Edge (Label α))} :
    assemble S start states transitions = .error f ↔
      (start ∉ flaggedIds states ∧ f = .missingState start) ∨
        start ∈ flaggedIds states ∧ ∃ u e v, transitions = u ++ e :: v ∧
          (∀ c ∈ u, c.Fits S (flaggedIds states)) ∧
          e.Misses S (flaggedIds states) f := by
  have hfirst : transitions.findSome? (edgeFault S (flaggedIds states))
      = some f ↔ ∃ u e v, transitions = u ++ e :: v ∧
        (∀ c ∈ u, c.Fits S (flaggedIds states)) ∧
        e.Misses S (flaggedIds states) f := by
    simp only [List.findSome?_eq_some_iff, edgeFault_eq_some_iff,
      edgeFault_eq_none_iff_fits, and_comm]
  rw [← hfirst]
  unfold assemble
  by_cases hstart : start ∈ flaggedIds states
  · rw [if_neg (Decidable.not_not.mpr hstart)]
    cases transitions.findSome? (edgeFault S (flaggedIds states)) <;>
      simp [hstart]
  · simp [hstart, eq_comm]

/-- **Otherwise the fault is the first one.** -/
theorem ofDefinition_eq_error_iff :
    ofDefinition d = .error f ↔ d.FirstFault f := by
  unfold ofDefinition
  cases hstray : d.strayAccept with
  | some q =>
    obtain ⟨hq, hout, hleast⟩ := Definition.strayAccept_eq_some_iff.mp hstray
    constructor
    · rintro ⟨⟩
      exact .accept hq hout hleast
    · intro h
      cases h with
      | accept hp hpout hpleast =>
        rw [UInt32.le_antisymm (hleast _ hp hpout) (hpleast _ hq hout)]
      | start haccept => exact absurd (haccept q hq) hout
      | transition haccept => exact absurd (haccept q hq) hout
  | none =>
    have haccept := Definition.strayAccept_eq_none_iff.mp hstray
    rw [assemble_eq_error_iff, Definition.flaggedIds_flaggedStates]
    constructor
    · rintro (⟨hstart, rfl⟩ | ⟨hstart, u, e, v, hsplit, hu, he⟩)
      · exact .start haccept hstart
      · exact .transition haccept hstart hsplit hu he
    · intro h
      cases h with
      | accept hp hpout => exact absurd (haccept _ hp) hpout
      | start _ hstart => exact Or.inl ⟨hstart, rfl⟩
      | transition _ hstart hsplit hu he =>
        exact Or.inr ⟨hstart, _, _, _, hsplit, hu, he⟩

/-- **Definitions of one automaton agree**, and those that agree define one
automaton. -/
theorem eq_iff_agrees (h : ofDefinition d = .ok A)
    (h' : ofDefinition d' = .ok B) : A = B ↔ d.Agrees d' := by
  rw [eq_of_ofDefinition h, eq_of_ofDefinition h', mk.injEq]
  constructor
  · rintro ⟨halphabet, hstart, hstates, haccept, hedges⟩
    refine ⟨halphabet, hstates, hstart, haccept, fun e => ?_⟩
    rw [← EdgeSet.mem_ofList, hedges, EdgeSet.mem_ofList]
  · rintro ⟨halphabet, hstates, hstart, haccept, hedges⟩
    exact ⟨halphabet, hstart, hstates, haccept, EdgeSet.ext fun e => by
      rw [EdgeSet.mem_ofList, EdgeSet.mem_ofList, hedges]⟩

/-- **What a definition comes to.** Entered step by step it comes to the same as
a whole: to an automaton if the definition is consistent, and else to its first
fault. Two definitions that describe automata describe one just if they agree,
in whatever order and however often they give their transitions. -/
theorem ofDefinition_decides_consistency (d : Definition α (Label α)) :
    Stepwise.ofDefinition d = ofDefinition d ∧
    ((∃ A, ofDefinition d = .ok A) ↔ d.Consistent) ∧
    (∀ f, ofDefinition d = .error f ↔ d.FirstFault f) ∧
    ∀ d' A A', ofDefinition d = .ok A → ofDefinition d' = .ok A' →
      (A = A' ↔ d.Agrees d') :=
  ⟨Stepwise.ofDefinition_eq d, exists_ofDefinition_eq_ok_iff,
    fun _ => ofDefinition_eq_error_iff, fun _ _ _ => eq_iff_agrees⟩

/-- Two states and some transitions. -/
def twoStates (transitions : List (Edge (Label Char))) :
    Definition Char (Label Char) where
  alphabet := .ofList ['0']
  states := .ofList [4, 9]
  start := 4
  accept := .ofList [9]
  transitions := transitions

/-- A step from one of them to the other. -/
def hop : Edge (Label Char) := ⟨4, .symbol '0', 9⟩

/-- The step back. -/
def slip : Edge (Label Char) := ⟨9, .silent, 4⟩

/-- A cycle may be given from either of its states on, and over and over. Of two
transitions at fault the first one counts, and of that one its symbol. -/
theorem ofDefinition_decides_consistency_twoStates :
    (∃ A, ofDefinition (twoStates [hop, slip]) = .ok A ∧
      ofDefinition (twoStates [slip, hop, slip]) = .ok A) ∧
    ofDefinition (twoStates [slip, ⟨4, .symbol '1', 7⟩, ⟨5, .silent, 9⟩, hop])
      = .error (.outsideSymbol '1') := by
  have hhop : hop.Fits (.ofList ['0']) (.ofList [4, 9]) := by
    constructor <;> simp [hop]
  have hslip : slip.Fits (.ofList ['0']) (.ofList [4, 9]) := by
    constructor <;> simp [slip]
  obtain ⟨-, hforth, -, hsame⟩ :=
    ofDefinition_decides_consistency (twoStates [hop, slip])
  obtain ⟨-, hback, -, -⟩ :=
    ofDefinition_decides_consistency (twoStates [slip, hop, slip])
  obtain ⟨-, -, hfault, -⟩ := ofDefinition_decides_consistency
    (twoStates [slip, ⟨4, .symbol '1', 7⟩, ⟨5, .silent, 9⟩, hop])
  obtain ⟨A, hA⟩ := hforth.mpr
    (by constructor <;> simp [twoStates, hhop, hslip])
  obtain ⟨B, hB⟩ := hback.mpr
    (by constructor <;> simp [twoStates, hhop, hslip])
  have heq : A = B := (hsame _ A B hA hB).mpr
    (by constructor <;> simp [twoStates, or_comm])
  refine ⟨⟨A, hA, heq ▸ hB⟩, (hfault _).mpr ?_⟩
  refine .transition (u := [slip]) ?_ ?_ rfl ?_ (.symbol rfl ?_) <;>
    simp [twoStates, hslip]

end NFA

end Recognizer
