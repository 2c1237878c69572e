import Recognizer.NFA.Simulation

/-!
# Paths

What an automaton accepts can be said without running it: a word is
accepted when some path of transitions from the start to an accepting
state spells it, the silent transitions spelling nothing. This module
says it that way and shows that running says the same
(`recognizes_iff_accepts`).

The link is `mem_walk_iff`: from a set of states that silent transitions
do not leave, a run reaches exactly the states at the ends of the paths
that spell the word.
-/

namespace Recognizer.NFA

variable {α : Type} [LinearOrd α]

/-- **A path that spells a word.** -/
inductive Path (A : NFA α) : State → List α → State → Prop where
  | refl (q : State) : Path A q [] q
  | silent {q r s : State} {w : List α} :
      ⟨q, .silent, r⟩ ∈ A.edges → Path A r w s → Path A q w s
  | symbol {q r s : State} {a : α} {w : List α} :
      ⟨q, .symbol a, r⟩ ∈ A.edges → Path A r w s → Path A q (a :: w) s

/-- **A word is accepted** when a path that spells it leads from the
start to an accepting state. -/
def Accepts (A : NFA α) (w : List α) : Prop :=
  ∃ q ∈ A.final, A.Path A.start w q

/-- With a single accepting state all accepted words are those of the paths
to it. -/
theorem accepts_iff_path {A : NFA α} {q : State}
    (h : A.final = OrdSet.ofList [q]) {w : List α} :
    A.Accepts w ↔ A.Path A.start w q := by
  unfold Accepts
  rw [h]
  refine ⟨fun ⟨p, hp, hpath⟩ => ?_, fun hpath => ⟨q, by simp, hpath⟩⟩
  rw [OrdSet.mem_ofList, List.mem_singleton] at hp
  exact hp ▸ hpath

namespace Path

variable {A : NFA α}

/-- Paths one after the other spell the words one after the other. -/
theorem append {p q r : State} {u v : List α} (h : A.Path p u q)
    (h' : A.Path q v r) : A.Path p (u ++ v) r := by
  induction h with
  | refl => exact h'
  | silent he _ ih => exact .silent he (ih h')
  | symbol he _ ih => exact .symbol he (ih h')

/-- What silent transitions reach is at the end of a path that spells
nothing. -/
theorem of_reachable {p q : State}
    (h : Reachable A.silentTargets [p] q) : A.Path p [] q := by
  induction h with
  | start h => exact List.mem_singleton.mp h ▸ .refl _
  | step _ he ih =>
    exact ih.append (.silent (mem_silentTargets.mp he) (.refl _))

/-- The end of a path that spells nothing is reached silently. -/
theorem reachable {p q : State} (h : A.Path p [] q) :
    Reachable A.silentTargets [p] q := by
  generalize hw : ([] : List α) = w at h
  induction h with
  | refl => exact .start List.mem_cons_self
  | silent he _ ih =>
    exact (ih hw).mono fun x hx => by
      rw [List.mem_singleton.mp hx]
      exact .step (.start List.mem_cons_self) (mem_silentTargets.mpr he)
  | symbol => exact absurd hw nofun

theorem nil_iff {p q : State} :
    A.Path p [] q ↔ Reachable A.silentTargets [p] q :=
  ⟨reachable, of_reachable⟩

/-- **A path that spells something** goes silently to where it takes the
first symbol. -/
theorem cons_iff {p s : State} {a : α} {w : List α} :
    A.Path p (a :: w) s ↔ ∃ q r, A.Path p [] q ∧
      ⟨q, .symbol a, r⟩ ∈ A.edges ∧ A.Path r w s := by
  constructor
  · generalize hv : a :: w = v
    intro h
    induction h with
    | refl => exact absurd hv nofun
    | silent he _ ih =>
      obtain ⟨q, r, hq, he', hr⟩ := ih hv
      exact ⟨q, r, .silent he hq, he', hr⟩
    | symbol he hp _ =>
      cases hv
      exact ⟨_, _, .refl _, he, hp⟩
  · rintro ⟨q, r, hq, he, hr⟩
    exact hq.append (.symbol he hr)

/-- **A path that spells two words in a row** passes between them. -/
theorem append_iff {p r : State} {u v : List α} :
    A.Path p (u ++ v) r ↔ ∃ q, A.Path p u q ∧ A.Path q v r := by
  constructor
  · intro h
    induction u generalizing p with
    | nil => exact ⟨p, .refl p, h⟩
    | cons a u ih =>
      obtain ⟨q, q', hq, he, hq'⟩ := cons_iff.mp h
      obtain ⟨t, ht, hr⟩ := ih hq'
      exact ⟨t, cons_iff.mpr ⟨q, q', hq, he, ht⟩, hr⟩
  · rintro ⟨q, h, h'⟩
    exact h.append h'

/-- An automaton with more edges has more paths. -/
theorem mono {B : NFA α} (hE : ∀ e ∈ A.edges, e ∈ B.edges) {p q : State}
    {w : List α} (h : A.Path p w q) : B.Path p w q := by
  induction h with
  | refl => exact .refl _
  | silent he _ ih => exact .silent (hE _ he) ih
  | symbol he _ ih => exact .symbol (hE _ he) ih

/-- A path from a state that no edge leaves is empty. -/
theorem eq_of_no_edge {p q : State} {w : List α}
    (hp : ∀ e ∈ A.edges, e.source ≠ p) (h : A.Path p w q) :
    w = [] ∧ q = p := by
  cases h with
  | refl => exact ⟨rfl, rfl⟩
  | silent he => exact absurd rfl (hp _ he)
  | symbol he => exact absurd rfl (hp _ he)

/-- **A path that cannot leave a part** is a path of the part. -/
theorem of_closed {N : NFA α} {R : States}
    (hN : ∀ e ∈ N.edges, e.source ∈ R → e ∈ A.edges)
    (hA : ∀ e ∈ A.edges, e.target ∈ R) {p q : State} {w : List α}
    (hp : p ∈ R) (h : N.Path p w q) : A.Path p w q := by
  induction h with
  | refl => exact .refl _
  | silent he _ ih =>
    have he' := hN _ he hp
    exact .silent he' (ih (hA _ he'))
  | symbol he _ ih =>
    have he' := hN _ he hp
    exact .symbol he' (ih (hA _ he'))

/-- **A path that leaves a part** is a path of the part up to the first
bridge, and goes on from the other side. All that leads out of the part is
silent, so the word is cut in two at the bridge. -/
theorem exists_bridge {N : NFA α} {R : States} {B : State → State → Prop}
    (hN : ∀ e ∈ N.edges, e.source ∈ R → e ∈ A.edges ∨
      e.label = .silent ∧ B e.source e.target)
    (hA : ∀ e ∈ A.edges, e.target ∈ R) {p q : State} {w : List α}
    (hp : p ∈ R) (hq : q ∉ R) (h : N.Path p w q) :
    ∃ u v x y, w = u ++ v ∧ A.Path p u x ∧ B x y ∧ N.Path y v q := by
  induction h with
  | refl => exact absurd hp hq
  | silent he hpath ih =>
    rcases hN _ he hp with he' | ⟨-, hb⟩
    · obtain ⟨u, v, x, y, hw, hx, hb, hy⟩ := ih (hA _ he') hq
      exact ⟨u, v, x, y, hw, .silent he' hx, hb, hy⟩
    · exact ⟨[], _, _, _, rfl, .refl _, hb, hpath⟩
  | symbol he hpath ih =>
    rcases hN _ he hp with he' | ⟨hl, -⟩
    · obtain ⟨u, v, x, y, hw, hx, hb, hy⟩ := ih (hA _ he') hq
      exact ⟨_ :: u, v, x, y, congrArg _ hw, .symbol he' hx, hb, hy⟩
    · exact absurd hl nofun

/-- A path between states of a well-formed automaton stays among its
states. -/
theorem mem_states (hA : A.WellFormed) {p q : State} {w : List α}
    (h : A.Path p w q) (hp : p ∈ A.states) : q ∈ A.states := by
  induction h with
  | refl => exact hp
  | silent he _ ih => exact ih (hA.target_mem _ he)
  | symbol he _ ih => exact ih (hA.target_mem _ he)

end Path

/-- **A set that silent transitions do not leave.** -/
def SilentlyClosed (A : NFA α) (S : States) : Prop :=
  ∀ q ∈ S, ∀ r, ⟨q, .silent, r⟩ ∈ A.edges → r ∈ S

theorem SilentlyClosed.mem_of_path {A : NFA α} {S : States}
    (hS : A.SilentlyClosed S) {q r : State} (hq : q ∈ S)
    (h : A.Path q [] r) : r ∈ S := by
  have h' := h.reachable
  induction h' with
  | start h' => exact List.mem_singleton.mp h' ▸ hq
  | step hr he ih =>
    exact hS _ (ih (.of_reachable hr)) _ (mem_silentTargets.mp he)

theorem silentlyClosed_silentClosure {A : NFA α} (hA : A.WellFormed)
    (S : States) : A.SilentlyClosed (A.silentClosure S) := by
  intro q hq r he
  rw [mem_silentClosure_iff hA] at hq ⊢
  exact .step hq (mem_silentTargets.mpr he)

theorem silentlyClosed_nextSet? {A : NFA α} (hA : A.WellFormed)
    {S T : States} {a : α} (h : A.nextSet? S a = some T) :
    A.SilentlyClosed T := by
  rw [(nextSet?_eq_some_iff.mp h).1]
  exact silentlyClosed_silentClosure hA _

/-- **A run reaches the ends of the paths that spell its word.** -/
theorem mem_walk_iff {A : NFA α} (hA : A.WellFormed) {S : States}
    (hS : A.SilentlyClosed S) {w : List α} {r : State} :
    (∃ T, A.machine.walk S w = some T ∧ r ∈ T) ↔
      ∃ q ∈ S, A.Path q w r := by
  induction w generalizing S with
  | nil =>
    constructor
    · rintro ⟨T, hT, hr⟩
      cases hT
      exact ⟨r, hr, .refl r⟩
    · rintro ⟨q, hq, h⟩
      exact ⟨S, rfl, hS.mem_of_path hq h⟩
  | cons a w ih =>
    constructor
    · rintro ⟨T, hT, hr⟩
      rw [Machine.walk_cons, Option.bind_eq_some_iff] at hT
      obtain ⟨U, hU, hT⟩ := hT
      obtain ⟨q', hq', hp⟩ :=
        (ih (silentlyClosed_nextSet? hA hU)).mp ⟨T, hT, hr⟩
      obtain ⟨q, hq, p, he, hp'⟩ := (mem_nextSet?_iff hA).mp ⟨U, hU, hq'⟩
      exact ⟨q, hq, .symbol he ((Path.of_reachable hp').append hp)⟩
    · rintro ⟨q, hq, hp⟩
      obtain ⟨p, p', hpath, he, hp'⟩ := Path.cons_iff.mp hp
      obtain ⟨U, hU, hmem⟩ := (mem_nextSet?_iff hA (S := S)).mpr
        ⟨p, hS.mem_of_path hq hpath, p', he, .start List.mem_cons_self⟩
      obtain ⟨T, hT, hr⟩ :=
        (ih (silentlyClosed_nextSet? hA hU)).mpr ⟨p', hmem, hp'⟩
      refine ⟨T, ?_, hr⟩
      rw [Machine.walk_cons]
      exact Option.bind_eq_some_iff.mpr ⟨U, hU, hT⟩

/-- The ends of paths that begin in the set a run starts from are those
of paths that begin in the start. -/
theorem exists_path_startSet_iff {A : NFA α} (hA : A.WellFormed)
    {w : List α} {r : State} :
    (∃ q ∈ A.startSet, A.Path q w r) ↔ A.Path A.start w r := by
  constructor
  · rintro ⟨q, hq, hp⟩
    rw [startSet, mem_silentClosure_iff hA] at hq
    refine (Path.of_reachable (hq.mono fun x hx => ?_)).append hp
    rw [Std.ExtTreeSet.mem_toList, OrdSet.mem_ofList] at hx
    exact .start hx
  · intro h
    exact ⟨A.start, subset_silentClosure (by simp), h⟩

/-- **A run reaches the ends of the paths from the start** that spell its
word. -/
theorem mem_walk_startSet_iff {A : NFA α} (hA : A.WellFormed)
    {w : List α} {r : State} :
    (∃ T, A.machine.walk A.startSet w = some T ∧ r ∈ T) ↔
      A.Path A.start w r :=
  (mem_walk_iff hA (silentlyClosed_silentClosure hA _)).trans
    (exists_path_startSet_iff hA)

/-- **Running and paths agree**: a word is recognized when it is
accepted. -/
theorem recognizes_iff_accepts {A : NFA α} (hA : A.WellFormed)
    {w : List α} : A.machine.recognizes w = true ↔ A.Accepts w := by
  show (A.machine.walk A.startSet w).any A.isFinalSet = true ↔ _
  rw [Option.any_eq_true]
  constructor
  · rintro ⟨T, hT, hacc⟩
    obtain ⟨q, hq, hq'⟩ := OrdSet.meets_iff.mp hacc
    exact ⟨q, hq', (mem_walk_startSet_iff hA).mp ⟨T, hT, hq⟩⟩
  · rintro ⟨q, hq, hp⟩
    obtain ⟨T, hT, hmem⟩ := (mem_walk_startSet_iff hA).mpr hp
    exact ⟨T, hT, OrdSet.meets_iff.mpr ⟨q, hmem, hq⟩⟩

/-- A word over the alphabet has an answer, which is whether it is
accepted. -/
theorem exists_run_eq_ok {A : NFA α} (hA : A.WellFormed) {w : List α}
    (hw : ∀ a ∈ w, a ∈ A.alphabet) :
    ∃ b, A.run w = .ok b ∧ (b = true ↔ A.Accepts w) :=
  ⟨A.machine.recognizes w, Machine.run_of_forall_mem hw,
    recognizes_iff_accepts hA⟩

end Recognizer.NFA
