import FreeForm.Document
import FreeForm.Json
import FreeForm.Text.Column
import FreeForm.Text.Quoted

namespace FreeForm

/-!
# Listings

Documents and lexemes written out for a reader: one statement or one token on a line, or the whole
document as JSON. Included documents follow the one that includes them.
-/

namespace Listing

/-- The line in front of an included document. -/
def inclusionLine (path : Path) : Text :=
  "# included from ".toList ++ path ++ ['\n']

mutual

/-- The documents of the inclusions, each behind a line with its path. -/
def nested (own : Document → Text) : Document → Text
  | ⟨_, _, inclusions⟩ => nestedInclusions own inclusions

def nestedInclusions (own : Document → Text) : List (Path × Document) → Text
  | [] => []
  | i :: is => nestedInclusion own i ++ nestedInclusions own is

def nestedInclusion (own : Document → Text) : Path × Document → Text
  | (path, d) => inclusionLine path ++ own d ++ nested own d

end

/-- What `own` makes of a document, followed by the same of its inclusions. -/
def withInclusions (own : Document → Text) (d : Document) : Text :=
  own d ++ nested own d

/-- The token values of each statement on a line. -/
def ownStatements (d : Document) : Text :=
  d.statements.flatMap fun s => Text.join [' '] s.values ++ ['\n']

def statements : Document → Text :=
  withInclusions ownStatements

def kindColumn (k : Lexeme.Kind) : Text :=
  Text.padRight 12 k.label.toList

/-- A decoration of a token, left out when it is empty. -/
def decoration (name : String) (ts : List Text) : Text :=
  if ts.isEmpty then [] else ' ' :: name.toList ++ '=' :: Text.quotedList ts

def token (t : Token) : Text :=
  [' ', ' '] ++ kindColumn t.kind ++ ' ' :: Text.quoted t.value ++
    decoration "head" t.head ++ decoration "tail" t.tail ++
    (match t.split with
      | some split => " split=".toList ++ Text.quoted split
      | none => []) ++
    (match t.macroName? with
      | some name => " macro=".toList ++ name
      | none => []) ++ ['\n']

/-- The statements from a number on, token by token. -/
def numberedStatements : Nat → List Statement → Text
  | _, [] => []
  | n, s :: ss =>
      "statement ".toList ++ Text.decimal n ++ '\n' :: s.tokens.flatMap token ++
        numberedStatements (n + 1) ss

def ownTokens (d : Document) : Text :=
  numberedStatements 1 d.statements ++
    if d.trailing.isEmpty then [] else
      "trailing ".toList ++ Text.quotedList d.trailing ++ ['\n']

def tokens : Document → Text :=
  withInclusions ownTokens

def lexeme (line : Nat) (l : Lexeme) : Text :=
  Text.padLeft 5 (Text.decimal line) ++ ' ' :: kindColumn l.kind ++ ' ' :: Text.quoted l.text ++
    ['\n']

/-- A token as an object, without what it does not have. -/
def tokenJson (t : Token) : Json :=
  .object ([("value", .text t.value), ("kind", .text t.kind.label.toList)] ++
    Json.optionalTexts "head" t.head ++ Json.optionalTexts "tail" t.tail ++
    Json.optionalText "split" t.split ++ Json.optionalText "macro_origin" t.macroName?)

def statementJson (s : Statement) : Json :=
  .list (s.tokens.map tokenJson)

mutual

def documentJson : Document → Json
  | ⟨statements, trailing, inclusions⟩ =>
      .object ([("statements", .list (statements.map statementJson))] ++
        Json.optionalTexts "trailing" trailing ++
        match inclusionsJson inclusions with
        | [] => []
        | items => [("inclusions", .list items)])

def inclusionsJson : List (Path × Document) → List Json
  | [] => []
  | i :: is => inclusionJson i :: inclusionsJson is

def inclusionJson : Path × Document → Json
  | (path, d) => .object [("path", .text path), ("document", documentJson d)]

end

def json (d : Document) : Text :=
  Json.print 0 (documentJson d) ++ ['\n']

end Listing

end FreeForm
