import FreeForm.Fault
import FreeForm.Statement

namespace FreeForm

/-!
# Documents

A document is what a source was lexed into: its statements, the liminal text behind the last of them,
and the documents of the files it included. The source can be rebuilt from it; included files are
not pasted into it, for their include lines are liminal text.
-/

structure Document where
  statements : List Statement
  trailing : List Text
  /-- The files included, each with its path. -/
  inclusions : List (Path × Document)

namespace Document

def empty : Document := ⟨[], [], []⟩

/-- The text that the document was lexed from. -/
def source (d : Document) : Text :=
  d.statements.flatMap Statement.source ++ d.trailing.flatten

/-- The text with macros expanded and split tokens joined. -/
def expanded (d : Document) : Text :=
  d.statements.flatMap Statement.expanded ++ d.trailing.flatten

def values (d : Document) : List (List Text) :=
  d.statements.map Statement.values

mutual

/-- The statements of the document and of every file it includes, its own first. -/
def allStatements : Document → List Statement
  | ⟨statements, _, inclusions⟩ => statements ++ statementsOfInclusions inclusions

def statementsOfInclusions : List (Path × Document) → List Statement
  | [] => []
  | i :: is => statementsOfInclusion i ++ statementsOfInclusions is

def statementsOfInclusion : Path × Document → List Statement
  | (_, d) => d.allStatements

end

mutual

/-- How deep inclusions are nested; a document without inclusions has height zero. -/
def height : Document → Nat
  | ⟨_, _, inclusions⟩ => heightOfInclusions inclusions

def heightOfInclusions : List (Path × Document) → Nat
  | [] => 0
  | i :: is => max (heightOfInclusion i + 1) (heightOfInclusions is)

def heightOfInclusion : Path × Document → Nat
  | (_, d) => d.height

end

end Document

end FreeForm
