import Recognizer.Fault
import Recognizer.Regex.Basic

/-!
# Patterns as trees

A pattern is read in one pass. Four characters have a meaning: the bar
between alternatives, the star behind a factor, and the two parentheses
of a group. Every other character is a literal.

What has been read at any moment is a `Reader`: the choice being read
(`Draft`), and one draft for every group still open around it. A
character moves the reader to the next one or is a fault, which names
the place where it was found. Reading bounds the nesting twice, as a
tree deeper than the limit and as more open groups than the limit, so
that a hostile pattern is refused before it is read to its end.

A list of one item is the item: a sequence of a single factor is the
factor, and a choice with a single alternative is the alternative.
-/

namespace Recognizer.Regex

/-- **A choice while it is read.** Both lists hold the latest first. -/
structure Draft where
  /-- The alternatives already ended by a bar. -/
  alternatives : List (Regex Char)
  /-- The factors of the alternative being read. -/
  factors : List (Regex Char)

namespace Draft

/-- Nothing read yet. -/
def empty : Draft := ⟨[], []⟩

/-- One more factor. -/
def push (d : Draft) (t : Regex Char) : Draft :=
  { d with factors := t :: d.factors }

end Draft

/-- Several items under a node; a single item by itself. -/
def join (node : List (Regex Char) → Regex Char) :
    List (Regex Char) → Regex Char
  | [t] => t
  | ts => node ts

/-- The alternative being read, as a tree. -/
def Draft.alternative (d : Draft) : Regex Char :=
  join .sequence d.factors.reverse

/-- The whole choice, as a tree. -/
def Draft.choice (d : Draft) : Regex Char :=
  join .choice (d.alternative :: d.alternatives).reverse

/-- **What has been read so far.** -/
structure Reader where
  /-- The number of bytes read. -/
  position : Nat
  /-- The choice being read. -/
  draft : Draft
  /-- The groups still open, the innermost first: where each opens, and
  the draft it interrupts. -/
  groups : List (Nat × Draft)

namespace Reader

/-- Nothing read yet. -/
def start : Reader := ⟨0, .empty, []⟩

/-- The fault of this kind at the reader's place. -/
def fault (r : Reader) (kind : SyntaxFault) : PatternFault :=
  ⟨kind, r.position⟩

/-- Lets a tree pass that is no higher than the limit. -/
def checkHeight (limit position : Nat) (t : Regex Char) :
    Except PatternFault (Regex Char) :=
  if limit < t.height then .error ⟨.nestedTooDeep, position⟩ else .ok t

/-- A bar ends an alternative, which must not be empty. -/
def bar (limit : Nat) (r : Reader) : Except PatternFault Reader :=
  if r.draft.factors.isEmpty then .error (r.fault .missingFactor)
  else do
    let t ← checkHeight limit r.position r.draft.alternative
    return { r with
      position := r.position + 1
      draft := ⟨t :: r.draft.alternatives, []⟩ }

/-- An opening parenthesis sets the draft aside. -/
def openGroup (limit : Nat) (r : Reader) : Except PatternFault Reader :=
  if limit ≤ r.groups.length then .error (r.fault .nestedTooDeep)
  else .ok ⟨r.position + 1, .empty, (r.position, r.draft) :: r.groups⟩

/-- A closing parenthesis makes the choice a factor of the draft that
was set aside. -/
def closeGroup (limit : Nat) (r : Reader) : Except PatternFault Reader :=
  match r.groups with
  | [] => .error (r.fault .unopenedGroup)
  | (_, outer) :: groups =>
    if r.draft.factors.isEmpty then .error (r.fault .missingFactor)
    else do
      let inner ← checkHeight limit r.position r.draft.choice
      let t ← checkHeight limit (r.position + 1) (group inner)
      return ⟨r.position + 1, outer.push t, groups⟩

/-- A star applies to the factor before it. A second star right behind
has no factor of its own, and that is found before the height of the
first is looked at. -/
def star (limit : Nat) (r : Reader) (rest : List Char) :
    Except PatternFault Reader :=
  match r.draft.factors with
  | [] => .error (r.fault .starWithoutFactor)
  | t :: factors =>
    if rest.head? = some '*' then
      .error ⟨.starWithoutFactor, r.position + 1⟩
    else do
      let t ← checkHeight limit (r.position + 1) (Regex.star t)
      return { r with
        position := r.position + 1
        draft := { r.draft with factors := t :: factors } }

/-- Any other character is a literal. -/
def literal (r : Reader) (c : Char) : Reader :=
  { r with
    position := r.position + c.utf8Size
    draft := r.draft.push (Regex.literal c) }

/-- **One character moves the reader on**, or is a fault. -/
def step (limit : Nat) (r : Reader) (c : Char) (rest : List Char) :
    Except PatternFault Reader :=
  match c with
  | '|' => r.bar limit
  | '(' => r.openGroup limit
  | ')' => r.closeGroup limit
  | '*' => r.star limit rest
  | c => .ok (r.literal c)

theorem step_bar (limit : Nat) (r : Reader) (rest : List Char) :
    r.step limit '|' rest = r.bar limit := rfl

theorem step_openGroup (limit : Nat) (r : Reader) (rest : List Char) :
    r.step limit '(' rest = r.openGroup limit := rfl

theorem step_closeGroup (limit : Nat) (r : Reader) (rest : List Char) :
    r.step limit ')' rest = r.closeGroup limit := rfl

theorem step_star (limit : Nat) (r : Reader) (rest : List Char) :
    r.step limit '*' rest = r.star limit rest := rfl

/-- At the end of the pattern the last alternative must not be empty
and no group may be open. -/
def finish (limit : Nat) (r : Reader) : Except PatternFault (Regex Char) :=
  if r.draft.factors.isEmpty then .error (r.fault .missingFactor)
  else do
    let t ← checkHeight limit r.position r.draft.choice
    match r.groups with
    | [] => return t
    | (opened, _) :: _ => .error ⟨.unclosedGroup, opened⟩

/-- The tree of what is read together with the rest of the pattern. -/
def run (limit : Nat) : List Char → Reader → Except PatternFault (Regex Char)
  | [], r => r.finish limit
  | c :: rest, r => do run limit rest (← r.step limit c rest)

/-! ## When a step succeeds -/

/-- A check comes before whatever is done with the tree. -/
theorem checkHeight_bind_eq_ok_iff {β : Type} {limit position : Nat}
    {t : Regex Char} {f : Regex Char → Except PatternFault β} {b : β} :
    (checkHeight limit position t >>= f) = .ok b ↔
      t.height ≤ limit ∧ f t = .ok b := by
  unfold checkHeight
  by_cases h : limit < t.height
  · rw [if_pos h]
    exact ⟨nofun, fun h' => absurd h (Nat.not_lt.mpr h'.1)⟩
  · rw [if_neg h]
    exact ⟨fun h' => ⟨Nat.not_lt.mp h, h'⟩, fun h' => h'.2⟩

theorem bar_eq_ok_iff {limit : Nat} {r s : Reader} :
    r.bar limit = .ok s ↔ r.draft.factors ≠ [] ∧
      r.draft.alternative.height ≤ limit ∧
      s = ⟨r.position + 1,
        ⟨r.draft.alternative :: r.draft.alternatives, []⟩, r.groups⟩ := by
  unfold bar
  cases hf : r.draft.factors with
  | nil => simp
  | cons t ts =>
    rw [if_neg (by simp), checkHeight_bind_eq_ok_iff]
    simp [pure, Except.pure, eq_comm]

theorem openGroup_eq_ok_iff {limit : Nat} {r s : Reader} :
    r.openGroup limit = .ok s ↔ r.groups.length < limit ∧
      s = ⟨r.position + 1, .empty, (r.position, r.draft) :: r.groups⟩ := by
  unfold openGroup
  by_cases h : limit ≤ r.groups.length
  · rw [if_pos h]
    exact ⟨nofun, fun h' => absurd h (Nat.not_le.mpr h'.1)⟩
  · rw [if_neg h, Except.ok.injEq]
    exact ⟨fun h' => ⟨Nat.not_le.mp h, h'.symm⟩, fun h' => h'.2.symm⟩

theorem closeGroup_eq_ok_iff {limit : Nat} {r s : Reader} :
    r.closeGroup limit = .ok s ↔
      ∃ opened outer groups, r.groups = (opened, outer) :: groups ∧
        r.draft.factors ≠ [] ∧ (group r.draft.choice).height ≤ limit ∧
        s = ⟨r.position + 1, outer.push (group r.draft.choice), groups⟩ := by
  unfold closeGroup
  cases hg : r.groups with
  | nil => simp
  | cons g groups =>
    obtain ⟨opened, outer⟩ := g
    cases hf : r.draft.factors with
    | nil => simp
    | cons t ts =>
      dsimp only
      rw [if_neg (by simp), checkHeight_bind_eq_ok_iff,
        checkHeight_bind_eq_ok_iff]
      constructor
      · intro h
        refine ⟨opened, outer, groups, rfl, nofun, h.2.1, ?_⟩
        exact (Except.ok.inj h.2.2).symm
      · rintro ⟨_, _, _, hgroups, -, hheight, rfl⟩
        cases hgroups
        exact ⟨Nat.le_of_succ_le hheight, hheight, rfl⟩

theorem star_eq_ok_iff {limit : Nat} {r s : Reader} {rest : List Char} :
    r.star limit rest = .ok s ↔
      ∃ t ts, r.draft.factors = t :: ts ∧ rest.head? ≠ some '*' ∧
        (Regex.star t).height ≤ limit ∧
        s = ⟨r.position + 1,
          ⟨r.draft.alternatives, Regex.star t :: ts⟩, r.groups⟩ := by
  unfold star
  cases hf : r.draft.factors with
  | nil => simp
  | cons t ts =>
    by_cases h : rest.head? = some '*'
    · simp [h]
    · dsimp only
      rw [if_neg h, checkHeight_bind_eq_ok_iff]
      constructor
      · intro h'
        exact ⟨t, ts, rfl, h, h'.1, (Except.ok.inj h'.2).symm⟩
      · rintro ⟨_, _, hts, -, hheight, rfl⟩
        cases hts
        exact ⟨hheight, rfl⟩

theorem finish_eq_ok_iff {limit : Nat} {r : Reader} {t : Regex Char} :
    r.finish limit = .ok t ↔ r.draft.factors ≠ [] ∧ r.groups = [] ∧
      r.draft.choice.height ≤ limit ∧ t = r.draft.choice := by
  unfold finish
  cases hf : r.draft.factors with
  | nil => simp
  | cons u us =>
    rw [if_neg (by simp), checkHeight_bind_eq_ok_iff]
    cases r.groups with
    | nil => simp [pure, Except.pure, eq_comm]
    | cons g groups => simp

theorem run_cons_eq_ok_iff {limit : Nat} {r : Reader} {c : Char}
    {rest : List Char} {t : Regex Char} :
    r.run limit (c :: rest) = .ok t ↔
      ∃ s, r.step limit c rest = .ok s ∧ s.run limit rest = .ok t := by
  show (r.step limit c rest).bind _ = _ ↔ _
  cases r.step limit c rest with
  | error f => exact ⟨nofun, nofun⟩
  | ok s => simp [Except.bind]

/-- A step that succeeds is followed by the rest. -/
theorem run_of_step {limit : Nat} {r s : Reader} {c : Char}
    {rest : List Char} (h : r.step limit c rest = .ok s) :
    r.run limit (c :: rest) = s.run limit rest := by
  show (r.step limit c rest).bind _ = _
  rw [h]
  rfl

end Reader

/-- **The tree of a pattern**, or the first fault in it. -/
def read (limit : Nat) (pattern : List Char) :
    Except PatternFault (Regex Char) :=
  Reader.start.run limit pattern

/-- The tree of a pattern given as a text. -/
def ofPattern (limit : Nat) (pattern : String) :
    Except PatternFault (Regex Char) :=
  read limit pattern.toList

end Recognizer.Regex
