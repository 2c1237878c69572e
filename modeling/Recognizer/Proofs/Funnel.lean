import Recognizer.Proofs.Assembly
import Recognizer.Proofs.Obtainable
import Recognizer.Proofs.Packing

/-!
# Automata with one accepting state

A funnel accepts what the automaton accepts, at one state. How it comes by that
state depends on how many states accept. If it is one, the automaton is only
numbered from zero on. If there are several they stop accepting and go on to a
fresh state silently, and a word that led to one of them leads there. Paths that
pass through such a state, along a cycle or by silent edges of its own, are the
same as before, since nothing leaves the fresh state. If there is none, the fresh
state cannot be reached.

To funnel is to normalize: it leaves just those automata alone that have one
accepting state and are numbered from zero on (`NFA.funnel_eq_self_iff`). The
funnel of a funnel is nothing new for that reason.
-/

namespace Recognizer.NFA

variable {α : Type} [LinearOrd α] {A : NFA α}

/-- **An automaton that is numbered from zero on** keeps its ids if it is
numbered again. -/
theorem packed_zero_eq_self (hA : A.WellFormed) {n : Nat}
    (hn : n ≤ UInt32.size) (hstates : A.states = idsFrom 0 n) :
    A.packed 0 = A :=
  rename_eq_self hA fun q hq => by
    rw [numbering_apply_of_states_eq hn hstates hq, UInt32.zero_add]

/-- **One accepting state is enough**: there is nothing to do but to number the
states. -/
theorem pack_zero_eq_ok_funnel (hA : A.WellFormed)
    (hfit : A.size ≤ UInt32.size) (h : A.final.size = 1) :
    A.pack 0 = .ok A.funnel :=
  pack_eq_ok_iff.mpr ⟨fit_zero hfit, (toNFA_fragment hA (fit_zero hfit) h).symm⟩

/-- **The funnels are the automata with one accepting state that are numbered
from zero on.** -/
theorem funnel_eq_self_iff (hA : A.WellFormed)
    (hfit : A.fragmentSize ≤ UInt32.size) :
    A.funnel = A ↔ A.final.size = 1 ∧ A.states = idsFrom 0 A.size := by
  have hsize : A.size ≤ UInt32.size := Nat.le_trans A.size_le_fragmentSize hfit
  constructor
  · intro h
    have hstates := states_funnel hA hfit
    rw [← size_funnel hA hfit, h] at hstates
    exact ⟨h ▸ size_final_funnel A, hstates⟩
  · rintro ⟨hfinal, hstates⟩
    obtain ⟨-, hpacked⟩ :=
      pack_eq_ok_iff.mp (pack_zero_eq_ok_funnel hA hsize hfinal)
    rw [← hpacked, packed_zero_eq_self hA hsize hstates]

/-- A funnel needs no further state to be funnelled. -/
theorem fragmentSize_funnel (hA : A.WellFormed)
    (hfit : A.fragmentSize ≤ UInt32.size) :
    A.funnel.fragmentSize = A.fragmentSize := by
  rw [fragmentSize, if_pos (size_final_funnel A), size_funnel hA hfit]

/-- **The funnel of a funnel is nothing new.** -/
theorem funnel_funnel (hA : A.WellFormed)
    (hfit : A.fragmentSize ≤ UInt32.size) : A.funnel.funnel = A.funnel := by
  have hfit' : A.funnel.fragmentSize ≤ UInt32.size := by
    rwa [fragmentSize_funnel hA hfit]
  refine (funnel_eq_self_iff (wellFormed_funnel hA) hfit').mpr
    ⟨size_final_funnel A, ?_⟩
  rw [states_funnel hA hfit, size_funnel hA hfit]

/-- **A funnel gives the same answers**, and names the same faults. -/
theorem run_funnel (hA : A.WellFormed) (hfit : A.fragmentSize ≤ UInt32.size)
    (w : List α) : A.funnel.run w = A.run w :=
  run_eq_of_accepts_iff (wellFormed_funnel hA) hA rfl
    (fun _ => accepts_funnel_iff hA hfit) w

/-- **Collapsing the accepting states.** As long as the states are fewer than the
ids, it never fails, step by step or as a whole. The result has one accepting
state, the same alphabet and the same answers. It is the automaton numbered from
zero on where one state accepts already, and collapsing it once more changes
nothing. -/
theorem funnel_has_one_exit_and_same_runs (hA : A.Obtainable)
    (hsize : A.size < UInt32.size) :
    Stepwise.funnel A = .ok A.funnel ∧
    A.funnel.final.size = 1 ∧
    A.funnel.alphabet = A.alphabet ∧
    (∀ w, A.funnel.run w = A.run w) ∧
    (A.final.size = 1 → A.pack 0 = .ok A.funnel) ∧
    Stepwise.funnel A.funnel = .ok A.funnel ∧
    A.funnel.funnel = A.funnel := by
  have hwf := hA.wellFormed
  have hfit : A.fragmentSize ≤ UInt32.size := by
    unfold fragmentSize
    split <;> omega
  have htwice := funnel_funnel hwf hfit
  have hstepwise : Stepwise.funnel A.funnel = .ok A.funnel.funnel :=
    Stepwise.funnel_eq_ok (wellFormed_funnel hwf) (by
      rwa [fragmentSize_funnel hwf hfit])
  exact ⟨Stepwise.funnel_eq_ok hwf hfit, size_final_funnel A, rfl,
    run_funnel hwf hfit, pack_zero_eq_ok_funnel hwf (Nat.le_of_lt hsize),
    by rwa [htwice] at hstepwise, htwice⟩

/-- Both states of the one accept and lie on a cycle, and the last id is taken.
The other one only loses its ids. -/
theorem funnel_has_one_exit_and_same_runs_alternating_separated :
    alternating.Obtainable ∧ alternating.size < UInt32.size ∧
      separated.Obtainable ∧ separated.final.size = 1 ∧
      Stepwise.funnel alternating = .ok alternating.funnel ∧
      alternating.funnel.run ['0', '1', '0'] = alternating.run ['0', '1', '0'] ∧
      alternating.funnel.funnel = alternating.funnel ∧
      separated.pack 0 = .ok separated.funnel := by
  have halternating := obtainable_iff_wellFormed.mpr wellFormed_alternating
  have hseparated := obtainable_iff_wellFormed.mpr wellFormed_separated
  have hsize : alternating.size < UInt32.size := by decide
  have hfinal : separated.final.size = 1 := by decide
  obtain ⟨hok, -, -, hrun, -, -, htwice⟩ :=
    funnel_has_one_exit_and_same_runs halternating hsize
  obtain ⟨-, -, -, -, hpack, -, -⟩ :=
    funnel_has_one_exit_and_same_runs hseparated (by decide)
  exact ⟨halternating, hsize, hseparated, hfinal, hok, hrun _, htwice,
    hpack hfinal⟩

end Recognizer.NFA
