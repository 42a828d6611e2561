import FreeForm.Text

namespace FreeForm

/-!
# JSON

JSON values made of texts, lists and objects, and their printing over several lines, two spaces for
each level. Members are printed in their order; an empty list stays on one line.
-/

inductive Json where
  | text (t : Text)
  | list (items : List Json)
  | object (members : List (String × Json))

namespace Json

def letterEscapes : List (Char × Char) :=
  [('\x08', 'b'), ('\x0c', 'f'), ('\n', 'n'), ('\r', 'r'), ('\t', 't'), ('"', '"'), ('\\', '\\')]

/-- One character of a string. Controls without a letter of their own are written as four digits. -/
def escape (c : Char) : Text :=
  match letterEscapes.lookup c with
  | some letter => ['\\', letter]
  | none =>
      if c.toNat < 0x20 then
        let digits := Nat.toDigits 16 c.toNat
        ['\\', 'u'] ++ List.replicate (4 - digits.length) '0' ++ digits
      else [c]

def string (t : Text) : Text :=
  '"' :: t.flatMap escape ++ ['"']

def newline (level : Nat) : Text :=
  '\n' :: List.replicate (2 * level) ' '

/-- Items on lines of their own between two brackets. -/
def block (opening closing : Char) (level : Nat) (items : List Text) : Text :=
  if items.isEmpty then [opening, closing]
  else
    opening :: newline (level + 1) ++ Text.join (',' :: newline (level + 1)) items ++
      newline level ++ [closing]

mutual

/-- A value whose first line stands at the given level. -/
def print (level : Nat) : Json → Text
  | .text t => string t
  | .list items => block '[' ']' level (printItems (level + 1) items)
  | .object members => block '\x7b' '\x7d' level (printMembers (level + 1) members)

def printItems (level : Nat) : List Json → List Text
  | [] => []
  | item :: items => print level item :: printItems level items

def printMembers (level : Nat) : List (String × Json) → List Text
  | [] => []
  | member :: members => printMember level member :: printMembers level members

def printMember (level : Nat) : String × Json → Text
  | (key, value) => string key.toList ++ [':', ' '] ++ print level value

end

def texts (ts : List Text) : Json :=
  .list (ts.map .text)

/-- A member that is left out when its list is empty. -/
def optionalTexts (key : String) (ts : List Text) : List (String × Json) :=
  if ts.isEmpty then [] else [(key, texts ts)]

/-- A member that is left out when it has no value. -/
def optionalText (key : String) (t : Option Text) : List (String × Json) :=
  t.toList.map fun value => (key, .text value)

end Json

end FreeForm
