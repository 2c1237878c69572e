import Recognizer.Definition

/-!
# Documents

Alphabets, labels and automata are exchanged as documents: trees of
numbers, texts, arrays and objects. Writing one is a function, and
reading one is a function that may refuse, because a document is made by
anyone.

`Codec` pairs the two for a type and asks for the law that ties them:
what was written is read back.
-/

namespace Recognizer

/-- **A document.** A number that is not an integer is only known to be
one, since nothing here is written as such a number. -/
inductive Document where
  | null
  | boolean (value : Bool)
  | integer (value : Int)
  | fraction
  | text (value : String)
  | array (items : List Document)
  | object (fields : List (String × Document))
  deriving Inhabited

/-- **Writing and reading documents of a type.** -/
class Codec (α : Type) where
  encode : α → Document
  decode : Document → Option α
  /-- What was written is read back. -/
  decode_encode (x : α) : decode (encode x) = some x

/-- A codec that never writes the null document, which is therefore free
to stand for the absence of a symbol. -/
class SymbolCodec (α : Type) extends Codec α where
  encode_ne_null (x : α) : encode x ≠ .null

namespace Document

/-- The items of an array. -/
def items? : Document → Option (List Document)
  | array ds => some ds
  | _ => none

end Document

/-- A character is a text of exactly one. -/
instance : SymbolCodec Char where
  encode c := .text (String.singleton c)
  decode
    | .text s => match s.toList with
      | [c] => some c
      | _ => none
    | _ => none
  decode_encode c := by simp
  encode_ne_null _ := nofun

/-- An integer of 64 bits, the sign included. -/
instance : SymbolCodec Int64 where
  encode n := .integer n.toInt
  decode
    | .integer n =>
      if (Int64.ofInt n).toInt = n then some (Int64.ofInt n) else none
    | _ => none
  decode_encode n := by simp
  encode_ne_null _ := nofun

instance : SymbolCodec String where
  encode s := .text s
  decode
    | .text s => some s
    | _ => none
  decode_encode _ := rfl
  encode_ne_null _ := nofun

/-- A state is known by an integer of 32 bits without a sign. -/
instance : Codec State where
  encode q := .integer q.toNat
  decode
    | .integer n =>
      if (UInt32.ofNat n.toNat).toNat = n then some (UInt32.ofNat n.toNat)
      else none
    | _ => none
  decode_encode q := by simp

namespace Label

variable {α : Type}

/-- **On a transition** a label is written as its symbol, or as null
when it is silent. -/
instance [SymbolCodec α] : Codec (Label α) where
  encode
    | symbol a => Codec.encode a
    | silent => .null
  decode
    | .null => some silent
    | d => (Codec.decode d).map symbol
  decode_encode l := by
    cases l with
    | silent => rfl
    | symbol a =>
      dsimp only
      split
      · exact absurd ‹_› (SymbolCodec.encode_ne_null a)
      · rw [Codec.decode_encode, Option.map_some]

/-- **By itself** a label is written by name: the name alone when it is
silent, and with its symbol when it is a literal. -/
def toDocument [SymbolCodec α] : Label α → Document
  | symbol a => .object [("Literal", Codec.encode a)]
  | silent => .text "Epsilon"

/-- Reads a label written by name. The silent one may also be written
with a null behind its name. -/
def ofDocument [SymbolCodec α] : Document → Option (Label α)
  | .text "Epsilon" => some silent
  | .object [("Epsilon", .null)] => some silent
  | .object [("Literal", d)] => (Codec.decode d).map symbol
  | _ => none

theorem ofDocument_toDocument [SymbolCodec α] (l : Label α) :
    ofDocument l.toDocument = some l := by
  cases l with
  | silent => rfl
  | symbol a => simp [toDocument, ofDocument, Codec.decode_encode]

end Label

/-- A list is written as an array. -/
instance {α : Type} [Codec α] : Codec (List α) where
  encode xs := .array (xs.map Codec.encode)
  decode d := d.items?.bind fun ds => ds.mapM Codec.decode
  decode_encode xs := by
    rw [Document.items?, Option.bind_some]
    induction xs with
    | nil => rfl
    | cons x xs ih => simp [Codec.decode_encode, ih]

/-- **A set is written as its members in order.** Reading takes them in
any order and with repetitions. -/
instance {α : Type} [LinearOrd α] [Codec α] : Codec (OrdSet α) where
  encode s := Codec.encode s.toList
  decode d := (Codec.decode d).map OrdSet.ofList
  decode_encode s := by simp [Codec.decode_encode]

/-- **A transition is written as an array of three**: the source, the
label and the target. -/
instance {ℓ : Type} [Codec ℓ] : Codec (Edge ℓ) where
  encode e := .array
    [Codec.encode e.source, Codec.encode e.label, Codec.encode e.target]
  decode
    | .array [q, l, r] => do
      return ⟨← Codec.decode q, ← Codec.decode l, ← Codec.decode r⟩
    | _ => none
  decode_encode e := by simp [Codec.decode_encode]

namespace Definition

variable {α ℓ : Type} [LinearOrd α] [Codec α] [Codec ℓ]

/-- The names of the parts, in the order in which an array gives them. -/
def fieldNames : List String :=
  ["alphabet", "states", "start", "accept", "transitions"]

/-- Reads the parts. The accepting states and the transitions may be
left out, and are then none. -/
def ofParts (alphabet states start : Document)
    (accept transitions : Option Document) : Option (Definition α ℓ) := do
  return {
    alphabet := ← Codec.decode alphabet
    states := ← Codec.decode states
    start := ← Codec.decode start
    accept := ← (accept.map Codec.decode).getD (some ∅)
    transitions := ← (transitions.map Codec.decode).getD (some []) }

/-- **A definition is written as an object of its parts.** It is read
from an object without any other field, or from an array of the parts in
their order. -/
instance : Codec (Definition α ℓ) where
  encode d := .object [
    ("alphabet", Codec.encode d.alphabet),
    ("states", Codec.encode d.states),
    ("start", Codec.encode d.start),
    ("accept", Codec.encode d.accept),
    ("transitions", Codec.encode d.transitions)]
  decode
    | .object fields => do
      guard (fields.all fun field => field.1 ∈ fieldNames)
      ofParts (← fields.lookup "alphabet") (← fields.lookup "states")
        (← fields.lookup "start") (fields.lookup "accept")
        (fields.lookup "transitions")
    | .array [alphabet, states, start] =>
      ofParts alphabet states start none none
    | .array [alphabet, states, start, accept] =>
      ofParts alphabet states start (some accept) none
    | .array [alphabet, states, start, accept, transitions] =>
      ofParts alphabet states start (some accept) (some transitions)
    | _ => none
  decode_encode d := by
    show ofParts (Codec.encode d.alphabet) (Codec.encode d.states)
      (Codec.encode d.start) (some (Codec.encode d.accept))
      (some (Codec.encode d.transitions)) = some d
    simp [ofParts, Codec.decode_encode]

end Definition

end Recognizer
