import FreeForm.Text

namespace FreeForm

/-!
# Lexemes

A lexeme is a stretch of one physical line with the kind it was scanned as. Its role says what the
assembly of statements does with it: liminal text is only kept, a continuation marker joins lines,
and everything else becomes a token.
-/

namespace Lexeme

inductive Kind where
  | whitespace
  | lineEnd
  | comment
  | name
  | number
  | string
  | dotOperator
  | operator
  | punctuation
  | continuation
  | separator
  deriving DecidableEq, Repr, Inhabited

/-- The name of a kind in listings. -/
def Kind.label : Kind → String
  | .whitespace => "whitespace"
  | .lineEnd => "line_end"
  | .comment => "comment"
  | .name => "name"
  | .number => "number"
  | .string => "string"
  | .dotOperator => "dot_operator"
  | .operator => "operator"
  | .punctuation => "punctuation"
  | .continuation => "continuation"
  | .separator => "separator"

def Kind.all : List Kind :=
  [.whitespace, .lineEnd, .comment, .name, .number, .string, .dotOperator, .operator,
    .punctuation, .continuation, .separator]

def Kind.ofLabel? (label : String) : Option Kind :=
  Kind.all.find? (·.label == label)

theorem Kind.mem_all (k : Kind) : k ∈ Kind.all := by
  cases k <;> decide

theorem Kind.ofLabel?_label (k : Kind) : Kind.ofLabel? k.label = some k := by
  cases k <;> rfl

inductive Role where
  | whitespace
  | comment
  | separator
  | continuation
  | semantic
  deriving DecidableEq, Repr

def Kind.role : Kind → Role
  | .whitespace | .lineEnd => .whitespace
  | .comment => .comment
  | .separator => .separator
  | .continuation => .continuation
  | .name | .number | .string | .dotOperator | .operator | .punctuation => .semantic

end Lexeme

structure Lexeme where
  kind : Lexeme.Kind
  text : Text
  deriving DecidableEq, Repr

namespace Lexeme

/-- The character that starts a preprocessor directive. -/
def directiveMark : Char := '#'

/-- The character that continues a statement on the next line. -/
def continuationMark : Char := '&'

def role (l : Lexeme) : Role :=
  l.kind.role

/-- White space, line ends, comments and separators. -/
def isLiminal (l : Lexeme) : Bool :=
  match l.role with
  | .whitespace | .comment | .separator => true
  | .continuation | .semantic => false

def isWhitespace (l : Lexeme) : Bool :=
  l.role == .whitespace

def isContinuation (l : Lexeme) : Bool :=
  l.role == .continuation

def isSemantic (l : Lexeme) : Bool :=
  l.role == .semantic

/-- A comment that starts with the directive mark. -/
def isDirective (l : Lexeme) : Bool :=
  l.kind == .comment && l.text.head? == some directiveMark

/-- The text that some lexemes were scanned from. -/
def concat (ls : List Lexeme) : Text :=
  ls.flatMap text

@[simp] theorem concat_nil : concat [] = [] := rfl

@[simp] theorem concat_cons (l : Lexeme) (ls : List Lexeme) :
    concat (l :: ls) = l.text ++ concat ls := by
  simp [concat]

@[simp] theorem concat_append (ls ms : List Lexeme) :
    concat (ls ++ ms) = concat ls ++ concat ms := by
  simp [concat]

end Lexeme

end FreeForm
