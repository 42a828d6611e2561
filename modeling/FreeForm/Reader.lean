import FreeForm.Configuration
import FreeForm.Document
import FreeForm.Preprocessor

namespace FreeForm

/-!
# Reading a line

A reader scans the lines of one source in order and carries out their directives. Every line yields
the liminal text at its front and, unless it is a directive or is being skipped, the lexemes from the
first that is not liminal. A skipped line is kept as it stands and is not even scanned, for it may
hold anything.
-/

/-- The outcome of lexing one source to its end. -/
structure Run where
  result : Except LexError Document
  /-- The macros left behind. -/
  macros : MacroTable
  events : List Event

/-- What the lines of a source are read in. -/
structure Environment where
  files : Files
  /-- Where included files are looked up. -/
  root : Path
  /-- How deep included files may nest. -/
  maxDepth : Nat
  /-- How an included file is lexed, where the depth allows it. -/
  nested : Option (Path → Source → MacroTable → Run)

/-- The state that reading a line changes. -/
structure Reader where
  /-- The file being read, if the source has a name. -/
  source : Option Path
  /-- How many lines have been read. -/
  lineNumber : Nat
  scanner : Scanner
  preprocessor : Preprocessor
  inclusions : List (Path × Document)

/-- What reading gives, with the state it leaves and the events on the way. -/
structure Reading (α : Type) where
  result : Except LexError α
  reader : Reader
  events : List Event

/-- A line as it was read: the liminal text at its front and the lexemes behind. -/
structure LineParts where
  lead : List Text
  content : List Lexeme
  deriving DecidableEq, Repr

namespace LineParts

def text (p : LineParts) : Text :=
  p.lead.flatten ++ Lexeme.concat p.content

/-- Cuts a line in front of its first lexeme that is not liminal. -/
def ofLexemes (ls : List Lexeme) : LineParts :=
  ⟨(ls.takeWhile (·.isLiminal)).map Lexeme.text, ls.dropWhile (·.isLiminal)⟩

theorem text_ofLexemes (ls : List Lexeme) : (ofLexemes ls).text = Lexeme.concat ls := by
  have h := congrArg Lexeme.concat (List.takeWhile_append_dropWhile (p := (·.isLiminal)) (l := ls))
  rw [Lexeme.concat_append] at h
  rw [← h]
  simp [text, ofLexemes, Lexeme.concat, List.flatMap_def]

end LineParts

/-- The directive of a line: the first lexeme that is not white space, when it is one and only liminal
lexemes precede it. -/
def directiveText? (ls : List Lexeme) : Option Text :=
  match (ls.takeWhile (·.isLiminal)).find? (!·.isWhitespace) with
  | some l => if l.isDirective then some l.text else none
  | none => none

namespace Reader

def start (source : Option Path) (macros : MacroTable) : Reader :=
  ⟨source, 0, .start, .start macros, []⟩

def macros (r : Reader) : MacroTable :=
  r.preprocessor.macros

def withMacros (r : Reader) (macros : MacroTable) : Reader :=
  { r with preprocessor := { r.preprocessor with macros := macros } }

def isSuppressed (r : Reader) : Bool :=
  r.preprocessor.suppressed

/-- A finding at the line being read. -/
def diagnosed (r : Reader) (finding : Finding) : Event :=
  .diagnosed ⟨finding, r.source, r.lineNumber⟩

def report (r : Reader) (finding : Finding) : Reading Unit :=
  ⟨.ok (), r, [r.diagnosed finding]⟩

/-- Lexes an included file, with the macros of this source. -/
def includeFile (env : Environment) (r : Reader) (name : Path) : Reading Unit :=
  let path := Path.join env.root name
  match env.files path, env.nested with
  | .directory, _ | .absent _, _ => r.report (.includeNotFound name)
  | .file _, none | .unreadable _, none => r.report (.includeTooDeep name env.maxDepth)
  | .unreadable fault, some _ => ⟨.error (.includeUnreadable path fault), r, [.including path]⟩
  | .file bytes, some lex =>
      let run := lex path (.ofBytes bytes) r.macros
      let r := r.withMacros run.macros
      match run.result with
      | .error e => ⟨.error e, r, .including path :: run.events⟩
      | .ok d =>
          ⟨.ok (), { r with inclusions := r.inclusions ++ [(path, d)] }, .including path :: run.events⟩

/-- Does what a directive leaves to do. -/
def settle (env : Environment) (r : Reader) : Outcome → Reading Unit
  | .applied => ⟨.ok (), r, []⟩
  | .includeFile name => r.includeFile env name
  | .report finding => r.report finding

/-- Carries out a directive that was read. -/
def apply (env : Environment) (r : Reader) (d : Directive) : Reading Unit :=
  let events := .directive r.lineNumber d :: r.preprocessor.events d
  match r.preprocessor.apply d with
  | .error e => ⟨.error (e.atLine r.lineNumber), r, events⟩
  | .ok (outcome, preprocessor) =>
      let reading := settle env { r with preprocessor := preprocessor } outcome
      { reading with events := events ++ reading.events }

/-- Runs the text of a directive. While source is skipped only conditionals are looked at. -/
def direct (env : Environment) (r : Reader) (text : Text) : Reading Unit :=
  if r.isSuppressed && !Directive.isConditionalLine text then
    ⟨.ok (), r, [.passedOver r.lineNumber]⟩
  else
    match Directive.parse text with
    | .error e => ⟨.error (e.atLine r.lineNumber), r, []⟩
    | .ok d => r.apply env d

/-- Reads a line that could be fetched. -/
def readText (env : Environment) (r : Reader) (line : Text) : Reading LineParts :=
  if r.isSuppressed && !Line.isDirective line then
    ⟨.ok ⟨Line.verbatim line, []⟩, r, []⟩
  else
    match r.scanner.scan line with
    | (.error e, _) => ⟨.error (e.atLine r.lineNumber), r, []⟩
    | (.ok lexemes, scanner) =>
        let r := { r with scanner := scanner }
        match directiveText? lexemes with
        | none => ⟨.ok (.ofLexemes lexemes), r, []⟩
        | some text =>
            let reading := r.direct env text
            ⟨reading.result.map fun _ => .ofLexemes lexemes, reading.reader, reading.events⟩

/-- Reads the next line. A line that cannot be fetched counts as well. -/
def read (env : Environment) (r : Reader) (line : SourceLine) : Reading LineParts :=
  let r := { r with lineNumber := r.lineNumber + 1 }
  match line with
  | .error fault => ⟨.error (.unreadable fault), r, []⟩
  | .ok text => r.readText env text

theorem length_content_ofLexemes_le (ls : List Lexeme) :
    (LineParts.ofLexemes ls).content.length ≤ ls.length :=
  (List.dropWhile_sublist _).length_le

/-- A line has at most one lexeme for each character, and its line end. -/
theorem length_content_le {env : Environment} {r : Reader} {text : Text} {parts : LineParts}
    (h : (r.read env (.ok text)).result = .ok parts) :
    parts.content.length ≤ text.length + 1 := by
  simp only [read, readText] at h
  split at h
  · cases h
    exact Nat.zero_le _
  · split at h
    · cases h
    · rename_i lexemes scanner hscan
      have hle : lexemes.length ≤ text.length + 1 := by
        unfold Scanner.scan at hscan
        split at hscan
        · rename_i scanned hok
          cases hscan
          exact length_lexemes_scanLine_le hok
        · cases hscan
      have hparts : parts = .ofLexemes lexemes := by
        split at h
        · cases h
          rfl
        · dsimp only at h
          cases hres : (direct env _ _).result with
          | error e =>
              rw [hres] at h
              cases h
          | ok u =>
              rw [hres] at h
              cases h
              rfl
      rw [hparts]
      exact Nat.le_trans (length_content_ofLexemes_le lexemes) hle

end Reader

end FreeForm
