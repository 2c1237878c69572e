import Recognizer.Text.Hidden

/-!
# Quoted text

Messages quote the characters and texts they speak of, so that a space,
a quote or a control character in them can be told from the message
itself. A quoted text stands between two quotes; inside, five
characters have a short escape, the quote and the backslash are
escaped by a backslash, and every hidden character is written by its
code point in hexadecimal.
-/

namespace Recognizer.Quoted

/-- The code point of a character, written `\u{…}` in lower case without
leading zeros. -/
def codePoint (c : Char) : List Char :=
  ['\\', 'u', '\x7b'] ++ Nat.toDigits 16 c.toNat ++ ['\x7d']

/-- **How a character is written between two quotes.** The quote that
does not delimit the text is left alone. -/
def escape (quote c : Char) : List Char :=
  if c = '\x00' then ['\\', '0']
  else if c = '\t' then ['\\', 't']
  else if c = '\r' then ['\\', 'r']
  else if c = '\n' then ['\\', 'n']
  else if c = '\\' then ['\\', '\\']
  else if c = quote then ['\\', quote]
  else if isHidden c then codePoint c
  else [c]

/-- A text between two quotes. -/
def between (quote : Char) (cs : List Char) : List Char :=
  quote :: (cs.flatMap (escape quote) ++ [quote])

/-- A single character, in single quotes. -/
def char (c : Char) : String :=
  String.ofList (between '\'' [c])

/-- A text, in double quotes. -/
def text (s : String) : String :=
  String.ofList (between '"' s.toList)

/-- **A visible character that is no quote stands for itself.** -/
theorem escape_of_visible {quote c : Char} (hq : c ≠ quote) (hb : c ≠ '\\')
    (h : isHidden c = false) : escape quote c = [c] := by
  have hc : ∀ d : Char, isHidden d = true → c ≠ d := fun d hd e => by
    rw [e, hd] at h; exact Bool.noConfusion h
  simp [escape, hq, hb, h, hc _ (by decide : isHidden '\x00' = true),
    hc _ (by decide : isHidden '\t' = true),
    hc _ (by decide : isHidden '\r' = true),
    hc _ (by decide : isHidden '\n' = true)]

end Recognizer.Quoted
