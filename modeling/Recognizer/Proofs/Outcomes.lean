import Recognizer.Proofs.Limits

/-!
# What the limits decide

Limits decide whether the automaton of a tree is built, and nothing else about
it. The automaton is the same under all limits that let it pass, a limit on
states lets pass whatever is not larger than it in the end, and where building
is refused the reason given is a true one
(`Regex.toNFA_within_limits`).

The limit on states is looked at after every automaton on the way, and it would
refuse too much if a smaller automaton could come of a larger one. None does: an
operator needs the states of its operands and more, which is part of every
`Regex.Outcome`.
-/

namespace Recognizer.Regex

variable {α : Type} [LinearOrd α] {S : Alphabet α} {L : Limits}
  {depth : Nat} {e : Extent} {l : Language α} {A B : NFA α}
  {x : Except (Fault α) (NFA α)}

/-- **What passes is the automaton that was foreseen**, and it passes exactly
if it is neither too deep nor too large. -/
theorem Outcome.eq_ok_iff_of_room (hx : Outcome S L depth e l A x)
    (hroom : L.Room e.states) :
    x = .ok B ↔ B = A ∧ depth ≤ L.nesting ∧
      ∀ limit, L.states = some limit → e.states ≤ limit := by
  constructor
  · rintro rfl
    cases hx with
    | built hA =>
      refine ⟨rfl, hA.depth_le, fun limit hlimit => ?_⟩
      rw [← (hA.realizes hroom).size_eq]
      exact hA.size_le limit hlimit
  · rintro ⟨rfl, hdepth, hstates⟩
    exact (hx.realizes hdepth hroom hstates).1

theorem Outcome.eq_ok_iff (hx : Outcome S L depth e l A x)
    (hfit : e.states ≤ UInt32.size) :
    x = .ok B ↔ B = A ∧ depth ≤ L.nesting ∧
      ∀ limit, L.states = some limit → e.states ≤ limit :=
  hx.eq_ok_iff_of_room (Or.inl hfit)

/-- **What is refused is refused for a reason.** -/
theorem Outcome.error_cases {f : Fault α}
    (hx : Outcome S L depth e l A (.error f)) (hfit : e.states ≤ UInt32.size) :
    (f = .tooDeep L.nesting ∧ L.nesting < depth) ∨
      ∃ limit states, f = .tooManyStates limit states ∧
        L.states = some limit ∧ limit < states ∧ states ≤ e.states := by
  cases hx with
  | tooDeep h => exact Or.inl ⟨rfl, h⟩
  | tooLarge hlimit h hle =>
    exact Or.inr ⟨_, _, rfl, hlimit, h, hle (Or.inl hfit)⟩

/-- **The outcome of building a tree**, over any alphabet and under any limits,
as long as there are ids for the states of the whole. -/
theorem toNFA_within_limits (S : Alphabet α) (t : Regex α) :
    (∀ u a v, t.leaves = u ++ a :: v → (∀ b ∈ u, b ∈ S) → a ∉ S →
      ∀ L, t.toNFA S L = .error (.outsideSymbol a)) ∧
    ((∀ a ∈ t.leaves, a ∈ S) → t.extent.states ≤ UInt32.size →
      ∃ N : NFA α, N.size = t.extent.states ∧
        (∀ L : Limits, L.states = none → t.depth ≤ L.nesting →
          t.toNFA S L = .ok N) ∧
        ∀ L,
          (∀ A, t.toNFA S L = .ok A ↔ A = N ∧ t.depth ≤ L.nesting ∧
            ∀ limit, L.states = some limit → N.size ≤ limit) ∧
          ∀ f, t.toNFA S L = .error f →
            (f = .tooDeep L.nesting ∧ L.nesting < t.depth) ∨
            ∃ limit states, f = .tooManyStates limit states ∧
              L.states = some limit ∧ limit < states ∧ states ≤ N.size) := by
  refine ⟨fun u a v hleaves hu ha L => toNFA_eq_outsideSymbol
    (Alphabet.firstOutside_eq_some_iff.mpr ⟨ha, u, v, hleaves, hu⟩),
    fun hS hfit => ?_⟩
  have hout : ∀ L, Outcome S L t.depth t.extent t.language (t.automaton S)
      (t.toNFA S L) := fun L => toNFA_outcome hS
  -- without a limit on states the automaton is built, and shows its size
  have hfree : ∀ L : Limits, L.states = none → t.depth ≤ L.nesting →
      t.toNFA S L = .ok (t.automaton S) ∧
        (t.automaton S).Realizes S t.extent t.language := fun L hnone hdepth =>
    (hout L).realizes hdepth (Or.inl hfit) fun limit hlimit =>
      absurd (hnone.symm.trans hlimit) nofun
  have hsize := (hfree ⟨none, t.depth⟩ rfl (Nat.le_refl _)).2.size_eq
  refine ⟨t.automaton S, hsize, fun L hnone hdepth => (hfree L hnone hdepth).1,
    fun L => ⟨fun A => ?_, fun f hf => ?_⟩⟩
  · rw [hsize]
    exact (hout L).eq_ok_iff hfit
  · rw [hsize]
    exact (hf ▸ hout L).error_cases hfit

/-- A letter, and any number of times nothing at all. -/
def letterThenNothing : Regex Char :=
  .sequence [.literal 'a', .star (.choice [])]

/-- The empty choice has one state and needs a second one to be repeated. -/
theorem toNFA_within_limits_letterThenNothing :
    (∀ L : Limits, (sequence [literal 'a', literal 'c', literal 'b']).toNFA
      (Alphabet.ofString "a") L = .error (.outsideSymbol 'c')) ∧
    ∃ N : NFA Char, N.size = 6 ∧
      ∀ L : Limits,
        letterThenNothing.toNFA (Alphabet.ofString "a") L = .ok N ↔
          2 ≤ L.nesting ∧ ∀ limit, L.states = some limit → 6 ≤ limit := by
  obtain ⟨houtside, -⟩ := toNFA_within_limits (Alphabet.ofString "a")
    (sequence [literal 'a', literal 'c', literal 'b'])
  obtain ⟨-, hinside⟩ :=
    toNFA_within_limits (Alphabet.ofString "a") letterThenNothing
  obtain ⟨N, hsize, -, hN⟩ :=
    hinside (Alphabet.firstOutside_eq_none_iff.mp rfl) (by decide)
  replace hsize : N.size = 6 := hsize
  refine ⟨houtside ['a'] 'c' ['b'] rfl
    (Alphabet.firstOutside_eq_none_iff.mp rfl) (by decide), N, hsize,
    fun L => ?_⟩
  rw [(hN L).1 N, hsize]
  exact ⟨fun h => h.2, fun h => ⟨rfl, h⟩⟩

end Recognizer.Regex
