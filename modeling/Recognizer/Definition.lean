import Recognizer.Alphabet
import Recognizer.Edge

/-!
# Definitions of automata

A definition lists what an automaton consists of, as a document or a
program states it. It is only a claim: the states it speaks of need not
exist, and its transitions may repeat or contradict each other. Whether
it describes an automaton is decided when one is made from it.

The labels are a parameter, because a deterministic automaton is defined
by transitions on symbols and a nondeterministic one by transitions on
`Label`s.
-/

namespace Recognizer

/-- **What an automaton is said to consist of.** -/
structure Definition (α ℓ : Type) [LinearOrd α] where
  alphabet : Alphabet α
  states : States
  start : State
  accept : States
  transitions : List (Edge ℓ)
  deriving DecidableEq

namespace Definition

variable {α ℓ : Type} [LinearOrd α]

/-- The definition with other labels. -/
def mapLabels {m : Type} (f : ℓ → m) (d : Definition α ℓ) : Definition α m where
  alphabet := d.alphabet
  states := d.states
  start := d.start
  accept := d.accept
  transitions := d.transitions.map (Edge.mapLabel f)

/-- The least accepting state that is not among the states. -/
def strayAccept (d : Definition α ℓ) : Option State :=
  d.accept.toList.find? fun q => q ∉ d.states

/-- The states, each with whether it accepts. -/
def flaggedStates (d : Definition α ℓ) : List (State × Bool) :=
  d.states.toList.map fun q => (q, d.accept.contains q)

theorem strayAccept_eq_none_iff {d : Definition α ℓ} :
    d.strayAccept = none ↔ ∀ q ∈ d.accept, q ∈ d.states := by
  simp [strayAccept]

end Definition

/-! ## States with flags -/

/-- The states of a list of flagged states. -/
def flaggedIds (states : List (State × Bool)) : States :=
  OrdSet.ofList (states.map Prod.fst)

/-- **The accepting ones**: a state that is listed again takes its last
flag. -/
def flaggedFinal (states : List (State × Bool)) : States :=
  states.foldl (fun S x => if x.2 then S.insert x.1 else S.erase x.1) ∅

@[simp] theorem mem_flaggedIds {states : List (State × Bool)}
    {q : State} : q ∈ flaggedIds states ↔ ∃ b, (q, b) ∈ states := by
  simp [flaggedIds]

theorem mem_foldl_flag {states : List (State × Bool)} {S : States}
    {q : State} :
    q ∈ states.foldl (fun S x => if x.2 then S.insert x.1 else S.erase x.1) S ↔
      match states.reverse.find? fun x => x.1 = q with
      | some x => x.2 = true
      | none => q ∈ S := by
  induction states generalizing S with
  | nil => simp
  | cons x xs ih =>
    rw [List.foldl_cons, ih, List.reverse_cons, List.find?_append]
    cases xs.reverse.find? fun x => x.1 = q with
    | some y => simp
    | none =>
      obtain ⟨p, b⟩ := x
      by_cases h : p = q <;> cases b <;> simp [h]

/-- **The last flag of a state is the one that counts.** -/
theorem mem_flaggedFinal {states : List (State × Bool)}
    {q : State} :
    q ∈ flaggedFinal states ↔
      ∃ x, (states.reverse.find? fun x => x.1 = q) = some x ∧ x.2 = true := by
  rw [flaggedFinal, mem_foldl_flag]
  cases states.reverse.find? fun x => x.1 = q <;> simp

/-- An accepting state is a state. -/
theorem flaggedFinal_subset {states : List (State × Bool)}
    {q : State} (h : q ∈ flaggedFinal states) :
    q ∈ flaggedIds states := by
  obtain ⟨x, hx, -⟩ := mem_flaggedFinal.mp h
  have hm := List.mem_reverse.mp (List.mem_of_find?_eq_some hx)
  have hq : x.1 = q := by simpa using List.find?_some hx
  exact mem_flaggedIds.mpr ⟨x.2, hq ▸ hm⟩

namespace Definition

variable {α ℓ : Type} [LinearOrd α]

@[simp] theorem flaggedIds_flaggedStates (d : Definition α ℓ) :
    flaggedIds d.flaggedStates = d.states := by
  have h : d.flaggedStates.map Prod.fst = d.states.toList := by
    simp [flaggedStates, Function.comp_def]
  rw [flaggedIds, h, OrdSet.ofList_toList]

/-- Where every accepting state is a state, the flags say which states
accept. -/
theorem flaggedFinal_flaggedStates {d : Definition α ℓ}
    (h : ∀ q ∈ d.accept, q ∈ d.states) :
    flaggedFinal d.flaggedStates = d.accept := by
  refine Std.ExtTreeSet.ext_mem fun q => ?_
  rw [mem_flaggedFinal]
  constructor
  · rintro ⟨x, hx, hb⟩
    have hm := List.mem_reverse.mp (List.mem_of_find?_eq_some hx)
    have hq : x.1 = q := by simpa using List.find?_some hx
    obtain ⟨p, -, rfl⟩ := List.mem_map.mp hm
    simpa [← hq] using hb
  · intro hq
    cases hf : d.flaggedStates.reverse.find? fun x => x.1 = q with
    | none =>
      have hm : (q, d.accept.contains q) ∈ d.flaggedStates :=
        List.mem_map.mpr ⟨q, Std.ExtTreeSet.mem_toList.mpr (h q hq), rfl⟩
      have := List.find?_eq_none.mp hf _ (List.mem_reverse.mpr hm)
      simp at this
    | some x =>
      have hm := List.mem_reverse.mp (List.mem_of_find?_eq_some hf)
      have hx : x.1 = q := by simpa using List.find?_some hf
      obtain ⟨p, -, rfl⟩ := List.mem_map.mp hm
      cases hx
      exact ⟨_, rfl, hq⟩

end Definition

end Recognizer
