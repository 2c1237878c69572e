import Recognizer.Alphabet
import Recognizer.Fault

/-!
# Machines

To run an automaton one needs to know four things about it: its
alphabet, the position a run starts from, where a position goes on a
symbol, and which positions accept. A `Machine` is those four, and
running is defined on it once for all kinds of automata.

A position that goes nowhere is a dead end: the word is not accepted,
and that is an answer, not a fault. A fault is a symbol from outside the
alphabet, anywhere in the word, and it is looked for before the first
step.
-/

namespace Recognizer

/-- **A way to run words**: positions of type `σ`, moved by symbols of
type `α`. -/
structure Machine (α σ : Type) [LinearOrd α] where
  alphabet : Alphabet α
  /-- Where a run starts. -/
  start : σ
  /-- Where a position goes, unless nothing can be accepted from there
  on. -/
  next? : σ → α → Option σ
  final : σ → Bool

namespace Machine

variable {α σ : Type} [LinearOrd α]

/-- The position after a word, unless a dead end comes before. -/
def walk (M : Machine α σ) (s : σ) (w : List α) : Option σ :=
  w.foldlM M.next? s

@[simp] theorem walk_nil (M : Machine α σ) (s : σ) :
    M.walk s [] = some s := rfl

@[simp] theorem walk_cons (M : Machine α σ) (s : σ) (a : α) (w : List α) :
    M.walk s (a :: w) = (M.next? s a).bind fun t => M.walk t w := rfl

/-- A word in two parts is walked one part after the other. -/
theorem walk_append (M : Machine α σ) (s : σ) (u v : List α) :
    M.walk s (u ++ v) = (M.walk s u).bind fun t => M.walk t v :=
  List.foldlM_append

/-- Whether the word ends in an accepting position. -/
def recognizes (M : Machine α σ) (w : List α) : Bool :=
  (M.walk M.start w).any M.final

/-- **Runs a word**: a fault if it has a symbol from outside the
alphabet, and otherwise whether it is recognized. -/
def run (M : Machine α σ) (w : List α) : Except (Fault α) Bool :=
  match M.alphabet.firstOutside w with
  | some a => .error (.outsideSymbol a)
  | none => .ok (M.recognizes w)

/-- The first symbol from outside is the fault, wherever it stands. -/
theorem run_eq_error_iff {M : Machine α σ} {w : List α} {f : Fault α} :
    M.run w = .error f ↔
      ∃ a, M.alphabet.firstOutside w = some a ∧ f = .outsideSymbol a := by
  unfold run
  cases M.alphabet.firstOutside w <;> simp [eq_comm]

/-- A word over the alphabet has an answer. -/
theorem run_of_forall_mem {M : Machine α σ} {w : List α}
    (h : ∀ a ∈ w, a ∈ M.alphabet) : M.run w = .ok (M.recognizes w) := by
  rw [run, Alphabet.firstOutside_eq_none_iff.mpr h]

/-! ## One machine after another

Two machines of different kinds run alike when the positions of one can be
read as positions of the other. Only the positions that runs come to matter,
and those are a condition of their own: `P` holds at the start and a step
does not leave it. -/

/-- **A machine follows another**: read through `f`, it takes the same
steps from every position that satisfies `P`. -/
structure Follows {τ : Type} (N : Machine α τ) (M : Machine α σ) (f : σ → τ)
    (P : σ → Prop) : Prop where
  alphabet_eq : N.alphabet = M.alphabet
  start_eq : N.start = f M.start
  start_mem : P M.start
  next?_eq : ∀ s, P s → ∀ a ∈ M.alphabet, N.next? (f s) a = (M.next? s a).map f
  next?_mem : ∀ s, P s → ∀ a ∈ M.alphabet, ∀ t, M.next? s a = some t → P t
  final_eq : ∀ s, P s → N.final (f s) = M.final s

namespace Follows

variable {τ : Type} {N : Machine α τ} {M : Machine α σ} {f : σ → τ}
  {P : σ → Prop}

/-- What one step does, a whole word does. -/
theorem walk_eq (h : N.Follows M f P) {w : List α}
    (hw : ∀ a ∈ w, a ∈ M.alphabet) {s : σ} (hs : P s) :
    N.walk (f s) w = (M.walk s w).map f ∧ ∀ t, M.walk s w = some t → P t := by
  induction w generalizing s with
  | nil =>
    refine ⟨rfl, fun t ht => ?_⟩
    cases ht
    exact hs
  | cons a w ih =>
    have ha := hw a List.mem_cons_self
    rw [walk_cons, walk_cons, h.next?_eq s hs a ha]
    cases ht : M.next? s a with
    | none => exact ⟨rfl, nofun⟩
    | some t =>
      exact ih (fun b hb => hw b (List.mem_cons_of_mem _ hb))
        (h.next?_mem s hs a ha t ht)

/-- **A machine that follows another gives its answers**, faults
included. -/
theorem run_eq (h : N.Follows M f P) (w : List α) : N.run w = M.run w := by
  unfold run
  rw [h.alphabet_eq]
  cases hw : M.alphabet.firstOutside w with
  | some a => rfl
  | none =>
    obtain ⟨hwalk, hP⟩ :=
      h.walk_eq (Alphabet.firstOutside_eq_none_iff.mp hw) h.start_mem
    have hrec : N.recognizes w = M.recognizes w := by
      unfold recognizes
      rw [h.start_eq, hwalk]
      cases ht : M.walk M.start w with
      | none => rfl
      | some t => exact h.final_eq t (hP t ht)
    rw [hrec]

end Follows

/-- **The positions of a walk**, the first one included. A dead end is
listed as the absence of a position, and nothing follows it. -/
def positions (M : Machine α σ) (s : σ) : List α → List (Option σ)
  | [] => [some s]
  | a :: w =>
    some s :: match M.next? s a with
      | none => [none]
      | some t => M.positions t w

end Machine

end Recognizer
