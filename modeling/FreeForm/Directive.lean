import FreeForm.LexError
import FreeForm.Lexeme

namespace FreeForm

/-!
# Directives

A directive line names, behind the directive mark, a definition, a condition or a file to include.
Only a known directive without its argument is malformed; what is not known is unsupported and kept
as it stands. An include line needs no blank behind its keyword.
-/

inductive Directive where
  | define (name body : Text)
  | undef (name : Text)
  | ifdef (name : Text)
  | ifndef (name : Text)
  | otherwise
  | endif
  /-- A path between quotes or, for a system file, between angle brackets. -/
  | includeFile (path : Text) (system : Bool)
  | unsupported (text : Text)
  deriving DecidableEq, Repr

namespace Directive

/-- The keywords that are words of their own. -/
inductive Keyword where
  | define
  | undef
  | ifdef
  | ifndef
  | otherwise
  | endif
  deriving DecidableEq, Repr

namespace Keyword

def text : Keyword → Text
  | .define => ['d', 'e', 'f', 'i', 'n', 'e']
  | .undef => ['u', 'n', 'd', 'e', 'f']
  | .ifdef => ['i', 'f', 'd', 'e', 'f']
  | .ifndef => ['i', 'f', 'n', 'd', 'e', 'f']
  | .otherwise => ['e', 'l', 's', 'e']
  | .endif => ['e', 'n', 'd', 'i', 'f']

def all : List Keyword :=
  [.define, .undef, .ifdef, .ifndef, .otherwise, .endif]

def ofText? (word : Text) : Option Keyword :=
  all.find? (·.text == word)

theorem ofText?_text (k : Keyword) : ofText? k.text = some k := by
  cases k <;> decide

theorem text_of_ofText? {word : Text} {k : Keyword} (h : ofText? word = some k) :
    k.text = word := by
  simpa using List.find?_some h

def isConditional : Keyword → Bool
  | .define | .undef => false
  | .ifdef | .ifndef | .otherwise | .endif => true

end Keyword

/-- The word that starts an include line. -/
def includeWord : Text :=
  ['i', 'n', 'c', 'l', 'u', 'd', 'e']

/-- Whether a directive takes part in conditional compilation. -/
def isConditional : Directive → Bool
  | .ifdef _ | .ifndef _ | .otherwise | .endif => true
  | .define .. | .undef _ | .includeFile .. | .unsupported _ => false

/-- The text of a directive line without its line end. -/
def line (text : Text) : Text :=
  text.dropEndWhile fun c => c == '\r' || c == '\n'

/-- What stands behind the directive mark of a line, trimmed. -/
def body (line : Text) : Text :=
  match line with
  | c :: rest => if c = Lexeme.directiveMark then Text.trim rest else Text.trim line
  | [] => []

/-- The path at the start of an include argument, and whether it names a system file. -/
def includePath? : Text → Option (Text × Bool)
  | [] => none
  | c :: rest =>
      if c = '"' then closed '"' false rest
      else if c = '<' then closed '>' true rest
      else none
where
  /-- The characters up to the closing one, if there are any. -/
  closed (close : Char) (system : Bool) (t : Text) : Option (Text × Bool) :=
    if close ∈ t ∧ t.head? ≠ some close then some (t.takeWhile (· != close), system) else none

/-- The name that a directive needs. -/
def required (name line : Text) : Except LexError Text :=
  if name = [] then .error (.malformedDirective line 0 .missingName) else .ok name

/-- The directive of a keyword, given the text behind it. -/
def ofKeyword (line rest : Text) : Keyword → Except LexError Directive
  | .define => (required rest.firstWord line).map (.define · rest.splitWord.2)
  | .undef => (required rest.firstWord line).map .undef
  | .ifdef => (required rest.firstWord line).map .ifdef
  | .ifndef => (required rest.firstWord line).map .ifndef
  | .otherwise => .ok .otherwise
  | .endif => .ok .endif

def ofBody (line body : Text) : Except LexError Directive :=
  match Keyword.ofText? body.firstWord with
  | some k => ofKeyword line body.splitWord.2 k
  | none =>
      if includeWord.isPrefixOf body then
        match includePath? (Text.trimStart (body.drop includeWord.length)) with
        | some (path, system) => .ok (.includeFile path system)
        | none => .error (.malformedDirective line 0 .badIncludePath)
      else .ok (.unsupported body)

/-- Reads a directive. Errors carry the line number 0. -/
def parse (text : Text) : Except LexError Directive :=
  ofBody (line text) (body (line text))

/-- Whether a directive line is a conditional, without looking at its argument. -/
def isConditionalLine (text : Text) : Bool :=
  (Keyword.ofText? (body (line text)).firstWord).any (·.isConditional)

/-- The directive as a value, for the log. -/
def describe : Directive → Text
  | .define name body =>
      "Define \x7b name: ".toList ++ name.quoted ++ ", body: ".toList ++ body.quoted ++ " \x7d".toList
  | .undef name => "Undef".toList ++ named name
  | .ifdef name => "Ifdef".toList ++ named name
  | .ifndef name => "Ifndef".toList ++ named name
  | .otherwise => "Else".toList
  | .endif => "Endif".toList
  | .includeFile path system =>
      "Include \x7b path: ".toList ++ path.quoted ++ ", system: ".toList ++
        (if system then "true".toList else "false".toList) ++ " \x7d".toList
  | .unsupported text => "Unsupported \x7b text: ".toList ++ text.quoted ++ " \x7d".toList
where
  named (name : Text) : Text :=
    " \x7b name: ".toList ++ name.quoted ++ " \x7d".toList

end Directive

end FreeForm
