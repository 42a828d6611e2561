import FreeForm.Text
import FreeForm.Unicode.Extending
import FreeForm.Unicode.Unprintable

namespace FreeForm

/-!
# Quoted text

Messages and listings show a text between delimiters, on one line and with every character visible:
the delimiter and the backslash are escaped, a few controls have a letter of their own, and whatever
cannot be printed or would combine with its neighbour is written as its code point.
-/

namespace Text

def letterEscapes : List (Char × Char) :=
  [('\x00', '0'), ('\t', 't'), ('\r', 'r'), ('\n', 'n'), ('\\', '\\')]

/-- The code point of a character in lower-case hexadecimal digits. -/
def hexDigits (c : Char) : Text :=
  Nat.toDigits 16 c.toNat

/-- One character between delimiters. -/
def escape (delimiter c : Char) : Text :=
  match letterEscapes.lookup c with
  | some letter => ['\\', letter]
  | none =>
      if c = delimiter then ['\\', c]
      else if Unicode.isExtending c || Unicode.isUnprintable c then
        ['\\', 'u', '\x7b'] ++ hexDigits c ++ ['\x7d']
      else [c]

/-- A text between double quotes. -/
def quoted (t : Text) : Text :=
  '"' :: t.flatMap (escape '"') ++ ['"']

/-- A character between single quotes. -/
def quotedChar (c : Char) : Text :=
  '\'' :: escape '\'' c ++ ['\'']

def quotedList (ts : List Text) : Text :=
  '[' :: join [',', ' '] (ts.map quoted) ++ [']']

end Text

end FreeForm
