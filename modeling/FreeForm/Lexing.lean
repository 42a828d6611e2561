import FreeForm.Lexer.Drain

namespace FreeForm

/-!
# Lexing sources

The entry points: a text or a file, lexed under a configuration. An included file is lexed by a lexer
of its own, one level deeper; at the last level no file is included any more, so that files which
include each other come to an end.
-/

namespace Environment

/-- How an included file is lexed when `levels` more levels of inclusion are allowed. -/
def nestedLexing (files : Files) (root : Path) (maxDepth : Nat) :
    Nat → Option (Path → Source → MacroTable → Run)
  | 0 => none
  | levels + 1 => some fun path source macros =>
      (Lexer.start source macros (some path)).run
        ⟨files, root, maxDepth, nestedLexing files root maxDepth levels⟩

/-- The environment of a source that no other includes. -/
def ofConfiguration (files : Files) (c : Configuration) : Environment :=
  ⟨files, c.includeRoot, c.maxIncludeDepth,
    nestedLexing files c.includeRoot c.maxIncludeDepth c.maxIncludeDepth⟩

end Environment

/-- A lexer of a source under a configuration, unless a predefined macro does not scan. -/
def Lexer.ofSource (c : Configuration) (source : Source) (name : Option Path) :
    Except LexError Lexer :=
  c.macroTable.map fun macros => .start source macros name

namespace Run

/-- A run that failed before it started. -/
def failed (e : LexError) : Run :=
  ⟨.error e, .empty, []⟩

end Run

def lexSource (files : Files) (c : Configuration) (source : Source) (name : Option Path) : Run :=
  match Lexer.ofSource c source name with
  | .error e => .failed e
  | .ok x => x.run (.ofConfiguration files c)

def lexText (files : Files) (c : Configuration) (t : Text) : Run :=
  lexSource files c (.ofText t) none

def lexFile (files : Files) (c : Configuration) (path : Path) : Run :=
  match files.open? path with
  | .error fault => .failed (.unreadable fault)
  | .ok source => lexSource files c source (some path)

/-- The token values of each statement of a text. -/
def tokenize (files : Files) (t : Text) : Except LexError (List (List Text)) :=
  (lexText files .standard t).result.map Document.values

end FreeForm
