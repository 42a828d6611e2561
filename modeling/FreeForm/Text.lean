import FreeForm.Unicode.Blank

namespace FreeForm

/-!
# Text

Source text is a list of characters. This module cuts it at separators and trims it; none of the
cuts loses a character.
-/

abbrev Text := List Char

/-- The blanks between lexemes: space and tab. -/
def isBlank (c : Char) : Bool :=
  c == ' ' || c == '\t'

/-- The pieces of a list, each cut off behind one separator. -/
def splitAfter {α : Type} [DecidableEq α] (separator : α) : List α → List (List α)
  | [] => []
  | a :: rest =>
      if a = separator then [a] :: splitAfter separator rest
      else
        match splitAfter separator rest with
        | [] => [[a]]
        | piece :: pieces => (a :: piece) :: pieces

@[simp] theorem splitAfter_flatten {α : Type} [DecidableEq α] (separator : α) (l : List α) :
    (splitAfter separator l).flatten = l := by
  fun_induction splitAfter separator l <;> simp_all

namespace Text

/-- The physical lines of a text, terminators included. -/
def lines (t : Text) : List Text :=
  splitAfter '\n' t

theorem lines_flatten (t : Text) : (lines t).flatten = t :=
  splitAfter_flatten '\n' t

/-- The text without the longest end whose characters all satisfy `p`. -/
def dropEndWhile (p : Char → Bool) (t : Text) : Text :=
  (t.reverse.dropWhile p).reverse

def trimStart (t : Text) : Text :=
  t.dropWhile Unicode.isWhiteSpace

def trim (t : Text) : Text :=
  dropEndWhile Unicode.isWhiteSpace (trimStart t)

/-- The first word of a text, and what follows it, trimmed. -/
def splitWord (t : Text) : Text × Text :=
  (t.takeWhile (!Unicode.isWhiteSpace ·), trim (t.dropWhile (!Unicode.isWhiteSpace ·)))

def firstWord (t : Text) : Text :=
  (splitWord t).1

/-- The text that some bytes encode in UTF-8, if they do. -/
def ofUtf8? (bytes : List UInt8) : Option Text :=
  (String.fromUTF8? ⟨bytes.toArray⟩).map String.toList

def toUtf8 (t : Text) : List UInt8 :=
  t.flatMap String.utf8EncodeChar

def decimal (n : Nat) : Text :=
  Nat.toDigits 10 n

/-- Several texts with a separator between each two. -/
def join (separator : Text) (ts : List Text) : Text :=
  (ts.intersperse separator).flatten

end Text

end FreeForm
