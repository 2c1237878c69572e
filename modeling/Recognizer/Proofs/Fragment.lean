import Recognizer.NFA.Operators
import Recognizer.NFA.Path

/-!
# Words of fragments

What a fragment is good for is the words it spells on the way from its
entry to its exit. This module puts fragments together, one after another,
side by side and round in a circle, and says what the results spell in
terms of what the parts do. It asks nothing of the ids but that the parts
have none in common.

The argument is the same each time. An edge that leaves a part is an edge of
the part or one of the few silent edges at its exit, so that a path which
ends outside stays in the part up to its exit
(`NFA.Path.exists_bridge`), and from there on is a path of what follows. In
a circle the exit also leads back to the entry. There a path is cut at every
return, by an induction over the path that collects the words between the
cuts.
-/

namespace Recognizer

namespace Fragment

variable {α : Type} [LinearOrd α]

/-- **The words of a fragment**: those of the paths from its entry to its
exit. -/
def Spells (F : Fragment α) (w : List α) : Prop :=
  (F.toNFA ∅).Path F.entry w F.exit

/-- As an automaton over any alphabet a fragment accepts the words it
spells. -/
theorem accepts_toNFA_iff {F : Fragment α} {S : Alphabet α} {w : List α} :
    (F.toNFA S).Accepts w ↔ F.Spells w := by
  rw [NFA.accepts_iff_path (q := F.exit) rfl]
  exact ⟨NFA.Path.mono (A := F.toNFA S) (B := F.toNFA ∅) fun _ he => he,
    NFA.Path.mono (A := F.toNFA ∅) (B := F.toNFA S) fun _ he => he⟩

variable {N : NFA α} {F L M : Fragment α} {S T : Alphabet α}

/-- A word of a part is on a path of the whole. -/
theorem Spells.path (hN : ∀ e ∈ F.edges, e ∈ N.edges) {w : List α}
    (h : F.Spells w) : N.Path F.entry w F.exit :=
  h.mono hN

/-- **A part that leads nowhere but to a dead end** spells what leads
there. -/
theorem spells_of_path_end (hF : F.WellFormed S) {z : State}
    (hN : ∀ e ∈ N.edges, e.source ∈ F.states → e ∈ F.edges ∨
      e.label = .silent ∧ e.source = F.exit ∧ e.target = z)
    (hz : ∀ e ∈ N.edges, e.source ≠ z) (hzF : z ∉ F.states) {w : List α}
    (h : N.Path F.entry w z) : F.Spells w := by
  obtain ⟨u, v, x, y, rfl, hu, ⟨rfl, rfl⟩, hv⟩ :=
    NFA.Path.exists_bridge (A := F.toNFA ∅)
      (B := fun x y => x = F.exit ∧ y = z) hN hF.target_mem
      hF.entry_mem hzF h
  rw [(hv.eq_of_no_edge hz).1, List.append_nil]
  exact hu

/-! ## One after another -/

/-- **Two fragments in a row** spell a word of the first and then one of the
second. -/
theorem path_link_iff (hL : L.WellFormed S) (hM : M.WellFormed T)
    (hdisj : ∀ q ∈ L.states, q ∉ M.states)
    (hN : ∀ e, e ∈ N.edges ↔
      e = ⟨L.exit, .silent, M.entry⟩ ∨ e ∈ L.edges ∨ e ∈ M.edges)
    {w : List α} :
    N.Path L.entry w M.exit ↔
      ∃ u v, w = u ++ v ∧ L.Spells u ∧ M.Spells v := by
  refine ⟨fun h => ?_, fun ⟨u, v, hw, hu, hv⟩ => ?_⟩
  · have hleft : ∀ e ∈ N.edges, e.source ∈ L.states → e ∈ L.edges ∨
        e.label = .silent ∧ e.source = L.exit ∧ e.target = M.entry := by
      intro e he hs
      rcases (hN e).mp he with rfl | he | he
      · exact Or.inr ⟨rfl, rfl, rfl⟩
      · exact Or.inl he
      · exact absurd (hM.source_mem e he) (hdisj _ hs)
    have hright : ∀ e ∈ N.edges, e.source ∈ M.states → e ∈ M.edges := by
      intro e he hs
      rcases (hN e).mp he with rfl | he | he
      · exact absurd hs (hdisj _ hL.exit_mem)
      · exact absurd hs (hdisj _ (hL.source_mem e he))
      · exact he
    -- the only edge out of the first fragment leads into the second one,
    -- and no edge leads back
    obtain ⟨u, v, x, y, hw, hu, ⟨rfl, rfl⟩, hv⟩ :=
      NFA.Path.exists_bridge (A := L.toNFA ∅)
        (B := fun x y => x = L.exit ∧ y = M.entry) hleft hL.target_mem
        hL.entry_mem (fun h => hdisj _ h hM.exit_mem) h
    exact ⟨u, v, hw, hu, hv.of_closed (A := M.toNFA ∅) hright hM.target_mem
      hM.entry_mem⟩
  · rw [hw]
    exact (hu.path fun e he => (hN e).mpr (Or.inr (Or.inl he))).append
      (.silent ((hN _).mpr (Or.inl rfl))
        (hv.path fun e he => (hN e).mpr (Or.inr (Or.inr he))))

/-! ## Side by side -/

/-- **Two fragments between a start and an end** that belong to neither. -/
def IsFork (N : NFA α) (L M : Fragment α) (start accept : State) : Prop :=
  ∀ e, e ∈ N.edges ↔ e = ⟨M.exit, .silent, accept⟩ ∨
    e = ⟨L.exit, .silent, accept⟩ ∨ e = ⟨start, .silent, M.entry⟩ ∨
    e = ⟨start, .silent, L.entry⟩ ∨ e ∈ L.edges ∨ e ∈ M.edges

section Fork

variable {start accept : State} (hN : IsFork N L M start accept)
include hN

/-- The two sides may be exchanged. -/
theorem IsFork.symm : IsFork N M L start accept := by
  intro e
  rw [hN e]
  constructor
  · rintro (h | h | h | h | h | h) <;> simp [h]
  · rintro (h | h | h | h | h | h) <;> simp [h]

/-- A side leads to the end and nowhere else. -/
theorem IsFork.edge_of_source_mem (hM : M.WellFormed T)
    (hdisj : ∀ q ∈ L.states, q ∉ M.states) (hstart : start ∉ L.states) :
    ∀ e ∈ N.edges, e.source ∈ L.states → e ∈ L.edges ∨
      e.label = .silent ∧ e.source = L.exit ∧ e.target = accept := by
  intro e he hs
  rcases (hN e).mp he with rfl | rfl | rfl | rfl | he | he
  · exact absurd hM.exit_mem (hdisj _ hs)
  · exact Or.inr ⟨rfl, rfl, rfl⟩
  · exact absurd hs hstart
  · exact absurd hs hstart
  · exact Or.inl he
  · exact absurd (hM.source_mem e he) (hdisj _ hs)

/-- Nothing leads on from the end. -/
theorem IsFork.source_ne (hL : L.WellFormed S) (hM : M.WellFormed T)
    (haccept : accept ∉ L.states ∧ accept ∉ M.states) (hne : start ≠ accept) :
    ∀ e ∈ N.edges, e.source ≠ accept := by
  intro e he hs
  rcases (hN e).mp he with rfl | rfl | rfl | rfl | he | he
  · exact haccept.2 (hs ▸ hM.exit_mem)
  · exact haccept.1 (hs ▸ hL.exit_mem)
  · exact hne hs
  · exact hne hs
  · exact haccept.1 (hs ▸ hL.source_mem e he)
  · exact haccept.2 (hs ▸ hM.source_mem e he)

/-- The start leads into one of the sides. -/
theorem IsFork.edge_of_start (hL : L.WellFormed S) (hM : M.WellFormed T)
    (hstart : start ∉ L.states ∧ start ∉ M.states) {l : Label α} {r : State}
    (he : ⟨start, l, r⟩ ∈ N.edges) :
    l = .silent ∧ (r = L.entry ∨ r = M.entry) := by
  rcases (hN _).mp he with h | h | h | h | he | he
  · cases h
    exact absurd hM.exit_mem hstart.2
  · cases h
    exact absurd hL.exit_mem hstart.1
  · cases h
    exact ⟨rfl, Or.inr rfl⟩
  · cases h
    exact ⟨rfl, Or.inl rfl⟩
  · exact absurd (hL.source_mem _ he) hstart.1
  · exact absurd (hM.source_mem _ he) hstart.2

/-- A word of a side is on a path from the start to the end. -/
theorem IsFork.path_of_spells {w : List α} (h : L.Spells w) :
    N.Path start w accept := by
  rw [← List.append_nil w]
  exact .silent ((hN _).mpr (by simp))
    ((h.path fun e he => (hN e).mpr (by simp [he])).append
      (.silent ((hN _).mpr (by simp)) (.refl _)))

/-- **Two fragments side by side** between a fresh start and a fresh end
spell what either does. -/
theorem path_fork_iff (hL : L.WellFormed S) (hM : M.WellFormed T)
    (hdisj : ∀ q ∈ L.states, q ∉ M.states)
    (hstart : start ∉ L.states ∧ start ∉ M.states)
    (haccept : accept ∉ L.states ∧ accept ∉ M.states)
    (hne : start ≠ accept) {w : List α} :
    N.Path start w accept ↔ L.Spells w ∨ M.Spells w := by
  have hend := hN.source_ne hL hM haccept hne
  refine ⟨fun h => ?_, fun h => ?_⟩
  · cases h with
    | refl => exact absurd rfl hne
    | symbol he => exact absurd (hN.edge_of_start hL hM hstart he).1 nofun
    | silent he h =>
      -- the first step chooses a side, and the side leads to the end only
      rcases (hN.edge_of_start hL hM hstart he).2 with rfl | rfl
      · exact Or.inl (spells_of_path_end hL
          (hN.edge_of_source_mem hM hdisj hstart.1) hend haccept.1 h)
      · exact Or.inr (spells_of_path_end hM
          (hN.symm.edge_of_source_mem hL
            (fun q hq hq' => hdisj q hq' hq) hstart.2) hend haccept.2 h)
  · rcases h with h | h
    · exact hN.path_of_spells h
    · exact hN.symm.path_of_spells h

end Fork

/-! ## In a circle -/

/-- **A path in a circle is cut at its returns**: the word up to the first
exit, and a word of the fragment for every time around after it. -/
theorem exists_rounds_of_path (hF : F.WellFormed S) {accept : State}
    (hN : ∀ e ∈ N.edges, e.source ∈ F.states → e ∈ F.edges ∨
      e.label = .silent ∧ e.source = F.exit ∧
        (e.target = F.entry ∨ e.target = accept))
    (hend : ∀ e ∈ N.edges, e.source ≠ accept) (haccept : accept ∉ F.states)
    {p : State} {w : List α} (hp : p ∈ F.states) (h : N.Path p w accept) :
    ∃ u ws, w = u ++ List.flatten ws ∧ (F.toNFA ∅).Path p u F.exit ∧
      ∀ v ∈ ws, F.Spells v := by
  induction h with
  | refl => exact absurd hp haccept
  | silent he hpath ih =>
    rcases hN _ he hp with he' | ⟨-, hs, ht⟩
    · obtain ⟨u, ws, hw, hu, hws⟩ := ih hN hend haccept (hF.target_mem _ he')
      exact ⟨u, ws, hw, .silent he' hu, hws⟩
    · cases hs
      rcases ht with ht | ht
      · -- back at the entry: what follows begins with a word of the fragment
        cases ht
        obtain ⟨u, ws, hw, hu, hws⟩ := ih hN hend haccept hF.entry_mem
        refine ⟨[], u :: ws, hw, .refl _, fun v hv => ?_⟩
        rcases List.mem_cons.mp hv with rfl | hv
        · exact hu
        · exact hws v hv
      · cases ht
        exact ⟨[], [], (hpath.eq_of_no_edge hend).1, .refl _, nofun⟩
  | symbol he hpath ih =>
    rcases hN _ he hp with he' | ⟨hl, -⟩
    · obtain ⟨u, ws, hw, hu, hws⟩ := ih hN hend haccept (hF.target_mem _ he')
      exact ⟨_ :: u, ws, congrArg _ hw, .symbol he' hu, hws⟩
    · exact absurd hl nofun

/-- **A fragment that may be gone through again**, or not at all, between a
start and an end that do not belong to it. -/
def IsLoop (N : NFA α) (F : Fragment α) (start accept : State) : Prop :=
  ∀ e, e ∈ N.edges ↔ e = ⟨F.exit, .silent, accept⟩ ∨
    e = ⟨F.exit, .silent, F.entry⟩ ∨ e = ⟨start, .silent, accept⟩ ∨
    e = ⟨start, .silent, F.entry⟩ ∨ e ∈ F.edges

section Loop

variable {start accept : State} (hN : IsLoop N F start accept)
include hN

/-- The fragment leads back to its entry or to the end. -/
theorem IsLoop.edge_of_source_mem (hstart : start ∉ F.states) :
    ∀ e ∈ N.edges, e.source ∈ F.states → e ∈ F.edges ∨
      e.label = .silent ∧ e.source = F.exit ∧
        (e.target = F.entry ∨ e.target = accept) := by
  intro e he hs
  rcases (hN e).mp he with rfl | rfl | rfl | rfl | he
  · exact Or.inr ⟨rfl, rfl, Or.inr rfl⟩
  · exact Or.inr ⟨rfl, rfl, Or.inl rfl⟩
  · exact absurd hs hstart
  · exact absurd hs hstart
  · exact Or.inl he

/-- Nothing leads on from the end. -/
theorem IsLoop.source_ne (hF : F.WellFormed S) (haccept : accept ∉ F.states)
    (hne : start ≠ accept) : ∀ e ∈ N.edges, e.source ≠ accept := by
  intro e he hs
  rcases (hN e).mp he with rfl | rfl | rfl | rfl | he
  · exact haccept (hs ▸ hF.exit_mem)
  · exact haccept (hs ▸ hF.exit_mem)
  · exact hne hs
  · exact hne hs
  · exact haccept (hs ▸ hF.source_mem e he)

/-- The start leads into the fragment or past it. -/
theorem IsLoop.edge_of_start (hF : F.WellFormed S) (hstart : start ∉ F.states)
    {l : Label α} {r : State} (he : ⟨start, l, r⟩ ∈ N.edges) :
    l = .silent ∧ (r = F.entry ∨ r = accept) := by
  rcases (hN _).mp he with h | h | h | h | he
  · cases h
    exact absurd hF.exit_mem hstart
  · cases h
    exact absurd hF.exit_mem hstart
  · cases h
    exact ⟨rfl, Or.inr rfl⟩
  · cases h
    exact ⟨rfl, Or.inl rfl⟩
  · exact absurd (hF.source_mem _ he) hstart

/-- Words of a fragment lead around its circle and then to the end. -/
theorem IsLoop.path_of_rounds {u : List α} {ws : List (List α)}
    (hu : F.Spells u) (hws : ∀ v ∈ ws, F.Spells v) :
    N.Path F.entry (u ++ ws.flatten) accept := by
  have hedges : ∀ e ∈ F.edges, e ∈ N.edges := fun e he =>
    (hN e).mpr (by simp [he])
  induction ws generalizing u with
  | nil =>
    exact (hu.path hedges).append
      (.silent ((hN _).mpr (by simp)) (.refl _))
  | cons v ws ih =>
    exact (hu.path hedges).append (.silent ((hN _).mpr (by simp))
      (ih (hws v List.mem_cons_self)
        fun x hx => hws x (List.mem_cons_of_mem _ hx)))

/-- **A fragment in a circle** spells any number of its words in a row. -/
theorem path_loop_iff (hF : F.WellFormed S) (hstart : start ∉ F.states)
    (haccept : accept ∉ F.states) (hne : start ≠ accept) {w : List α} :
    N.Path start w accept ↔
      ∃ ws : List (List α), w = ws.flatten ∧ ∀ u ∈ ws, F.Spells u := by
  have hend := hN.source_ne hF haccept hne
  refine ⟨fun h => ?_, fun ⟨ws, hw, hws⟩ => ?_⟩
  · cases h with
    | refl => exact absurd rfl hne
    | symbol he => exact absurd (hN.edge_of_start hF hstart he).1 nofun
    | silent he h =>
      -- into the fragment, or past it without a word
      rcases (hN.edge_of_start hF hstart he).2 with rfl | rfl
      · obtain ⟨u, ws, hw, hu, hws⟩ :=
          exists_rounds_of_path hF (hN.edge_of_source_mem hstart) hend haccept
            hF.entry_mem h
        refine ⟨u :: ws, hw, fun v hv => ?_⟩
        rcases List.mem_cons.mp hv with rfl | hv
        · exact hu
        · exact hws v hv
      · exact ⟨[], (h.eq_of_no_edge hend).1, nofun⟩
  · rw [hw]
    cases ws with
    | nil => exact .silent ((hN _).mpr (by simp)) (.refl _)
    | cons u ws =>
      exact .silent ((hN _).mpr (by simp))
        (hN.path_of_rounds (hws u List.mem_cons_self)
          fun v hv => hws v (List.mem_cons_of_mem _ hv))

end Loop

end Fragment

end Recognizer
