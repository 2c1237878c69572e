import Recognizer.DFA.Definition
import Recognizer.Document
import Recognizer.Journal
import Recognizer.Proofs.Layout
import Recognizer.Proofs.Answers
import Recognizer.Proofs.Construction
import Recognizer.Proofs.Determinization
import Recognizer.Proofs.Obtainable
import Recognizer.Proofs.Pattern
import Recognizer.Proofs.Simulation
import Recognizer.Proofs.Discovery
import Recognizer.Proofs.Numbering
import Recognizer.Proofs.Nesting
import Recognizer.Proofs.Reading
import Recognizer.Proofs.Exchange
import Recognizer.Proofs.Faults
import Recognizer.Proofs.Outcomes
import Recognizer.Proofs.Grammar
import Recognizer.Proofs.Canonicity
import Recognizer.Proofs.Deterministic
import Recognizer.Proofs.Invariance
import Recognizer.Proofs.Packing
import Recognizer.Proofs.Associativity
import Recognizer.Proofs.Flattening
import Recognizer.Proofs.Consistency
import Recognizer.Proofs.Determinism
import Recognizer.Proofs.Funnel
import Recognizer.Proofs.Widening
import Recognizer.Proofs.SubsetSearch
