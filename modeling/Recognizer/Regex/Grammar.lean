import Mathlib.Data.List.Basic
import Mathlib.Data.List.Induction
import Recognizer.Fault
import Recognizer.Text.Symbol
import Recognizer.Regex.Canonical

/-!
# The grammar of patterns

What a pattern is can be said without a reader and without trees, by the four
productions of a grammar:

    choice   = sequence ( '|' sequence )*
    sequence = factor+
    factor   = atom '*'?
    atom     = literal | '(' choice ')'

A literal is any character that is no sign. `Derives` holds of the texts of
each category, and a pattern is a text that is a choice.

The grammar also says where a text that is no pattern goes wrong. Some prefix
of it is the longest that still begins a pattern (`Viable`), and what comes
behind that prefix, a sign in a place where it cannot stand or the end of the
text, tells which fault it is (`faultAfter`).
-/

namespace Recognizer.Regex

/-! ## Derivations -/

/-- The categories of the grammar, the coarsest first. -/
inductive Category where
  | choice
  | sequence
  | factor
  | atom
  deriving DecidableEq, Repr

/-- **The texts of each category.** -/
inductive Derives : Category → List Char → Prop where
  | alternative {u : List Char} : Derives .sequence u → Derives .choice u
  | bar {u v : List Char} : Derives .sequence u → Derives .choice v →
      Derives .choice (u ++ '|' :: v)
  | single {u : List Char} : Derives .factor u → Derives .sequence u
  | juxtapose {u v : List Char} : Derives .factor u → Derives .sequence v →
      Derives .sequence (u ++ v)
  | plain {u : List Char} : Derives .atom u → Derives .factor u
  | star {u : List Char} : Derives .atom u → Derives .factor (u ++ ['*'])
  | literal {c : Char} : isSign c = false → Derives .atom [c]
  | group {u : List Char} : Derives .choice u →
      Derives .atom (parenthesize u)

/-- **The texts that are patterns.** -/
def IsPattern (u : List Char) : Prop := Derives .choice u

/-- **The texts that begin a pattern.** -/
def Viable (u : List Char) : Prop := ∃ v, IsPattern (u ++ v)

/-- The beginning of a text that begins a pattern begins one too. -/
theorem Viable.of_prefix {u v : List Char} (hv : Viable v) (huv : u <+: v) :
    Viable u := by
  obtain ⟨w, rfl⟩ := huv
  obtain ⟨x, hx⟩ := hv
  exact ⟨w ++ x, by rwa [← List.append_assoc]⟩

/-- The longest beginning of a text that begins a pattern. -/
structure IsLongestViable (u p : List Char) : Prop where
  isPrefix : u <+: p
  viable : Viable u
  longest : ∀ w, w <+: p → Viable w → w.length ≤ u.length

/-- Two longest beginnings are the same. -/
theorem IsLongestViable.unique {u v p : List Char}
    (hu : IsLongestViable u p) (hv : IsLongestViable v p) : u = v :=
  (List.prefix_of_prefix_length_le hu.isPrefix hv.isPrefix
    (hv.longest u hu.isPrefix hu.viable)).eq_of_length_le
    (hu.longest v hv.isPrefix hv.viable)

/-- A beginning is the longest if the next character cannot follow it. -/
theorem isLongestViable_of_not_viable_concat {u v : List Char} {c : Char}
    (hu : Viable u) (hc : ¬ Viable (u ++ [c])) :
    IsLongestViable u (u ++ c :: v) := by
  refine ⟨List.prefix_append u _, hu, fun w hw hviable => ?_⟩
  by_contra hlong
  have hnext : u ++ [c] <+: u ++ c :: v :=
    (List.prefix_append_right_inj u).mpr ⟨v, rfl⟩
  refine hc (hviable.of_prefix (List.prefix_of_prefix_length_le hnext hw ?_))
  rw [List.length_append, List.length_singleton]
  omega

/-- A text that begins a pattern is its own longest beginning. -/
theorem isLongestViable_self {u : List Char} (hu : Viable u) :
    IsLongestViable u u :=
  ⟨List.prefix_refl u, hu, fun _ hw _ => hw.length_le⟩

/-! ## Faults -/

/-- The bytes of a text. -/
def byteLength (u : List Char) : Nat := (String.ofList u).utf8ByteSize

@[simp] theorem byteLength_nil : byteLength [] = 0 := rfl

@[simp] theorem byteLength_concat (u : List Char) (c : Char) :
    byteLength (u ++ [c]) = byteLength u + c.utf8Size := by
  rw [byteLength, String.ofList_append, String.utf8ByteSize_append]
  exact congrArg _ String.utf8ByteSize_singleton

/-- One character on: where it ends, and where the groups begin that are open
behind it, the innermost first. -/
def scan (place : Nat × List Nat) (c : Char) : Nat × List Nat :=
  (place.1 + c.utf8Size,
    match c with
    | '(' => place.1 :: place.2
    | ')' => place.2.tail
    | _ => place.2)

/-- **Where the groups begin that a text leaves open**, the innermost
first. -/
def openGroups (u : List Char) : List Nat := (u.foldl scan (0, [])).2

@[simp] theorem openGroups_nil : openGroups [] = [] := rfl

theorem fst_foldl_scan (u : List Char) :
    (u.foldl scan (0, [])).1 = byteLength u := by
  induction u using List.reverseRecOn with
  | nil => rfl
  | append_singleton u c ih =>
    rw [List.foldl_concat, byteLength_concat, ← ih]
    rfl

/-- A group opens where the text before it ends. -/
theorem openGroups_concat_open (u : List Char) :
    openGroups (u ++ ['(']) = byteLength u :: openGroups u := by
  rw [openGroups, List.foldl_concat, ← fst_foldl_scan]
  rfl

/-- The innermost group is the one that closes. -/
theorem openGroups_concat_close (u : List Char) :
    openGroups (u ++ [')']) = (openGroups u).tail := by
  rw [openGroups, List.foldl_concat]
  rfl

theorem openGroups_concat_of_ne {u : List Char} {c : Char} (hopen : c ≠ '(')
    (hclose : c ≠ ')') : openGroups (u ++ [c]) = openGroups u := by
  rw [openGroups, List.foldl_concat, scan]
  · rfl
  · exact hopen
  · exact hclose

/-- Whether a text ends where an alternative begins. -/
def needsFactor (u : List Char) : Bool :=
  match u.getLast? with
  | none => true
  | some c => c = '|' || c = '('

@[simp] theorem needsFactor_concat (u : List Char) (c : Char) :
    needsFactor (u ++ [c]) = (c = '|' || c = '(' : Bool) := by
  simp [needsFactor]

/-- **The fault of a text** whose longest beginning is `u`, by what follows
that beginning. -/
def faultAfter (u : List Char) : List Char → Option PatternFault
  | [] =>
    if needsFactor u then some ⟨.missingFactor, byteLength u⟩
    else (openGroups u).head?.map fun opened => ⟨.unclosedGroup, opened⟩
  | '*' :: _ => some ⟨.starWithoutFactor, byteLength u⟩
  | ')' :: _ =>
    some ⟨if openGroups u = [] then .unopenedGroup else .missingFactor,
      byteLength u⟩
  | '|' :: _ => some ⟨.missingFactor, byteLength u⟩
  | _ :: _ => none

/-- **The fault that the grammar finds in a text.** -/
def IsFault (p : List Char) (f : PatternFault) : Prop :=
  ∃ u v, p = u ++ v ∧ IsLongestViable u p ∧ faultAfter u v = some f

/-- There is one fault at most. -/
theorem IsFault.unique {p : List Char} {f g : PatternFault}
    (hf : IsFault p f) (hg : IsFault p g) : f = g := by
  obtain ⟨u, v, rfl, hu, hfault⟩ := hf
  obtain ⟨u', v', heq, hu', hfault'⟩ := hg
  obtain rfl := hu.unique hu'
  rw [List.append_cancel_left heq, hfault'] at hfault
  exact (Option.some.inj hfault).symm

end Recognizer.Regex
