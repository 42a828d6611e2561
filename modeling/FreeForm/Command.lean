import FreeForm.Lexing
import FreeForm.Listing

namespace FreeForm

/-!
# The command

Lexes one file and prints it in one of several modes. Lexemes are printed line by line, so those in
front of an error are still seen; in all other modes nothing is printed unless the whole file lexes.
-/

namespace Command

inductive Mode where
  /-- The source rebuilt from its statements. -/
  | roundtrip
  | statements
  | tokens
  | lexemes
  /-- The source with macros expanded. -/
  | expanded
  | json
  deriving DecidableEq, Repr

namespace Mode

def label : Mode → String
  | .roundtrip => "roundtrip"
  | .statements => "statements"
  | .tokens => "tokens"
  | .lexemes => "lexemes"
  | .expanded => "expanded"
  | .json => "json"

def all : List Mode :=
  [.roundtrip, .statements, .tokens, .lexemes, .expanded, .json]

def ofLabel? (label : String) : Option Mode :=
  all.find? (·.label == label)

theorem ofLabel?_label (m : Mode) : ofLabel? m.label = some m := by
  cases m <;> rfl

end Mode

inductive Failure where
  | configuration (e : ConfigurationError)
  /-- The file cannot be opened, or not be read while its lexemes are printed. -/
  | file (fault : Fault)
  /-- A predefined macro does not scan. -/
  | predefinition (e : LexError)
  | lexing (path : Path) (e : LexError)
  | scanning (path : Path) (e : LexError)
  /-- The rebuilt source is not the file. -/
  | mismatch (path : Path)
  deriving DecidableEq, Repr

namespace Failure

/-- The texts of a failure and of its causes, outermost first. -/
def chain : Failure → List Text
  | .configuration e => [e.message]
  | .file fault => fault.chain
  | .predefinition e => e.chain
  | .lexing path e => ("Failed to lex ".toList ++ path) :: e.chain
  | .scanning path e => ("Failed to scan ".toList ++ path) :: e.chain
  | .mismatch path => ["Roundtrip of ".toList ++ path ++ " does not match the input".toList]

def message (f : Failure) : Text :=
  Text.join [':', ' '] f.chain

end Failure

/-- What was printed, why that was not all, and what could be watched. -/
structure Output where
  text : Text
  failure : Option Failure
  events : List Event

namespace Output

def failed (f : Failure) : Output := ⟨[], some f, []⟩

def after (t : Text) (o : Output) : Output :=
  { o with text := t ++ o.text }

end Output

/-- Prints the lexemes of lines, numbered from `n` on, up to the first fault. -/
def printLexemes (path : Path) : Nat → Scanner → Source → Output
  | _, _, [] => ⟨[], none, []⟩
  | _, _, .error fault :: _ => .failed (.file fault)
  | n, scanner, .ok line :: lines =>
      match scanner.scan line with
      | (.error e, _) => .failed (.scanning path (e.atLine n))
      | (.ok lexemes, scanner) =>
          (printLexemes path (n + 1) scanner lines).after (lexemes.flatMap (Listing.lexeme n))

/-- The text that a mode prints for a document. -/
def render (mode : Mode) (d : Document) : Text :=
  match mode with
  | .roundtrip | .lexemes => d.source
  | .statements => Listing.statements d
  | .tokens => Listing.tokens d
  | .expanded => d.expanded
  | .json => Listing.json d

def holds (files : Files) (path : Path) (t : Text) : Bool :=
  match files path with
  | .file bytes => Text.ofUtf8? bytes == some t
  | _ => false

/-- Prints a document that was lexed from a file. With `check`, the rebuilt source has to be the
file. -/
def printDocument (files : Files) (path : Path) (mode : Mode) (check : Bool) (d : Document) :
    Output :=
  if mode = .roundtrip ∧ check = true ∧ holds files path d.source = false then
    .failed (.mismatch path)
  else ⟨render mode d, none, []⟩

/-- Lexes a file and prints it. -/
def perform (files : Files) (c : Configuration) (path : Path) (mode : Mode) (check : Bool) :
    Output :=
  match files.openNamed path with
  | .error fault => .failed (.file fault)
  | .ok source =>
      if mode = .lexemes then printLexemes path 1 .start source
      else
        match Lexer.ofSource c source (some path) with
        | .error e => .failed (.predefinition e)
        | .ok x =>
            let run := x.run (.ofConfiguration files c)
            match run.result with
            | .error e => ⟨[], some (.lexing path e), run.events⟩
            | .ok d =>
                { printDocument files path mode check d with
                  events := run.events ++ [.lexed path d.statements.length d.inclusions.length] }

end Command

end FreeForm
