import Recognizer.NFA.Determinization
import Recognizer.Regex.Construction
import Recognizer.Regex.Printer

/-!
# What is logged

Building the automaton of a pattern and making an automaton
deterministic leave a trace: the tree that was read, the size of what
was built, every set of states as it is discovered. The trace is a list
of `Event`s, a function of the input like any other result, and its
wording stands in `Event.text`.
-/

namespace Recognizer

/-- How much detail an event is. -/
inductive Level where
  | debug
  | trace
  deriving DecidableEq

/-- **Something worth a line in the log.** -/
inductive Event where
  /-- A pattern was read as a tree. -/
  | parsed (pattern : String) (tree : Regex Char)
  /-- The automaton of a pattern was built, with this many states. -/
  | built (pattern : String) (states : Nat)
  /-- A set of states was discovered and numbered. -/
  | discovered (subset : States) (id : Nat)
  /-- An automaton was made deterministic: its number of states, and
  that of the result. -/
  | determinized (states results : Nat)

namespace Event

def level : Event → Level
  | parsed .. => .trace
  | built .. => .debug
  | discovered .. => .trace
  | determinized .. => .debug

/-- A set of states as the log shows it. -/
def subsetText (S : States) : String :=
  "\x7b" ++ ", ".intercalate (S.toList.map fun q => q.toNat.repr) ++ "\x7d"

/-- The line in the log. -/
def text : Event → String
  | parsed pattern tree =>
    "parsed " ++ Quoted.text pattern ++ " into " ++ tree.debug
  | built pattern states =>
    "compiled " ++ Quoted.text pattern ++ " into " ++ states.repr
      ++ " NFA states"
  | discovered subset id =>
    "subset " ++ subsetText subset ++ " discovered as DFA state " ++ id.repr
  | determinized states results =>
    "subset construction: " ++ states.repr ++ " NFA states -> "
      ++ results.repr ++ " DFA states"

end Event

/-- What happened, in order. -/
abbrev Journal := List Event

/-- **The trace of building the automaton of a pattern.** It ends where
a fault ends the construction. -/
def Journal.ofPattern (S : Alphabet Char) (L : Limits) (pattern : String) :
    Journal :=
  match Regex.ofPattern L.nesting pattern with
  | .error _ => []
  | .ok t => .parsed pattern t :: match t.toNFA S L with
    | .error _ => []
    | .ok A => [.built pattern A.size]

/-- **The trace of making an automaton deterministic**: every set after
the first as it is discovered, and the sizes at the end. -/
def Journal.ofDeterminization {α : Type} [LinearOrd α] (A : NFA α) :
    Journal :=
  let Ss := A.subsets
  (Ss.zipIdx.drop 1).map (fun x => .discovered x.1 x.2)
    ++ [.determinized A.size Ss.length]

end Recognizer
