import FreeForm.Draft
import FreeForm.Reader

namespace FreeForm

/-!
# The lexer

A lexer yields the statements of a source one by one. After a statement it looks ahead for the next
line with content, so that the liminal text between two statements belongs to the first of them. An
error met while looking ahead is kept until the statement has been yielded; after an error nothing
more is read.
-/

inductive Status where
  | ready
  /-- An error is to follow the statement yielded last. -/
  | deferred (e : LexError)
  | failed
  deriving DecidableEq, Repr

structure Lexer where
  reader : Reader
  /-- The lines not yet read. -/
  lines : Source
  /-- The lexemes of the line read last that no statement has taken. -/
  cache : List Lexeme
  /-- The liminal text that no statement has taken. -/
  pending : List Text
  status : Status

/-- What a lexer is asked for: a statement, an error, or nothing more. -/
inductive Yield where
  | statement (s : Statement)
  | failure (e : LexError)
  | finished

structure Step where
  yield : Yield
  lexer : Lexer
  events : List Event

def Step.after (events : List Event) (s : Step) : Step :=
  { s with events := events ++ s.events }

/-- What the lines read so far amount to, between two lines. -/
inductive Phase where
  | building (d : Draft)
  /-- A complete statement, and the liminal text found behind it while looking ahead. -/
  | complete (s : Statement) (ahead : List Text)

def Phase.addLiminals (liminals : List Text) : Phase → Phase
  | .building d => .building (d.addLiminals liminals)
  | .complete s ahead => .complete s (ahead ++ liminals)

namespace Lexer

/-- A lexer in front of a source. -/
def start (source : Source) (macros : MacroTable) (name : Option Path) : Lexer :=
  ⟨.start name macros, source, [], [], .ready⟩

def macros (x : Lexer) : MacroTable :=
  x.reader.macros

/-- The lexer with another macro table, which some other lexer may have changed. -/
def withMacros (x : Lexer) (macros : MacroTable) : Lexer :=
  { x with reader := x.reader.withMacros macros }

/-- The documents of the files included so far, and the lexer without them. -/
def takeInclusions (x : Lexer) : List (Path × Document) × Lexer :=
  (x.reader.inclusions, { x with reader := { x.reader with inclusions := [] } })

/-- The source has ended. -/
def atEnd (r : Reader) : Phase → Step
  | .building d =>
      match d.statement? with
      | none => ⟨.finished, ⟨r, [], [], d.liminals, .ready⟩, []⟩
      | some s => ⟨.statement s, ⟨r, [], [], [], .ready⟩, []⟩
  | .complete s ahead => ⟨.statement (s.addTail ahead), ⟨r, [], [], [], .ready⟩, []⟩

/-- A line could not be read. A complete statement comes first, without the text behind it. -/
def atError (r : Reader) (lines : Source) (e : LexError) : Phase → Step
  | .building _ => ⟨.failure e, ⟨r, lines, [], [], .failed⟩, []⟩
  | .complete s _ => ⟨.statement s, ⟨r, lines, [], [], .deferred e⟩, []⟩

/-- Takes the content of a line into a draft; `next` goes on with the lines behind it. -/
def consume (r : Reader) (lines : Source) (next : Reader → Phase → Step) (d : Draft)
    (content : List Lexeme) : Step :=
  match d.resume content with
  | .error e => ⟨.failure e, ⟨r, lines, [], [], .failed⟩, []⟩
  | .ok (d, rest, joined) =>
      let (progress, findings) := d.take r.macros rest
      .after (joined ++ findings.map r.diagnosed) <|
        match progress with
        | .open d => next r (.building d)
        | .closed s [] => next r (.complete s [])
        | .closed s (l :: ls) => ⟨.statement s, ⟨r, lines, l :: ls, [], .ready⟩, []⟩

/-- A line with content was read: it is taken into the draft, or kept for the next statement. -/
def atContent (r : Reader) (lines : Source) (next : Reader → Phase → Step)
    (content : List Lexeme) : Phase → Step
  | .building d => consume r lines next d content
  | .complete s ahead => ⟨.statement (s.addTail ahead), ⟨r, lines, content, [], .ready⟩, []⟩

/-- Reads lines until there is something to yield. -/
def advance (env : Environment) : Source → Reader → Phase → Step
  | [], r, phase => atEnd r phase
  | line :: lines, r, phase =>
      let reading := r.read env line
      .after reading.events <|
        match reading.result with
        | .error e => atError reading.reader lines e phase
        | .ok parts =>
            match parts.content with
            | [] => advance env lines reading.reader (phase.addLiminals parts.lead)
            | l :: ls =>
                atContent reading.reader lines (fun r p => advance env lines r p) (l :: ls)
                  (phase.addLiminals parts.lead)

/-- The next statement, or the error that ends the source. -/
def next (env : Environment) (x : Lexer) : Step :=
  match x.status with
  | .failed => ⟨.finished, x, []⟩
  | .deferred e => ⟨.failure e, { x with status := .failed }, []⟩
  | .ready =>
      match x.cache with
      | [] => advance env x.lines x.reader (.building (.ofLiminals x.pending))
      | l :: ls => consume x.reader x.lines (advance env x.lines) (.ofLiminals x.pending) (l :: ls)

end Lexer

end FreeForm
