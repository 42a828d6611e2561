import FreeForm.Inclusions
import FreeForm.Proofs.Reader.Applied
import FreeForm.Proofs.Reader.Parts

namespace FreeForm

/-!
# Surveying the lines of a source

The macro table that a line is lexed under and the lexemes it has can be found without assembling a
statement: a survey goes over the lines once, carries out the directives that are not passed over
and scans what is not skipped. A reader agrees with the survey on every source that includes no file.
-/

/-- Carries out a directive line, unless the line or its directive is at fault. -/
def Preprocessor.run (p : Preprocessor) (text : Text) : Preprocessor :=
  if p.suppressed && !Directive.isConditionalLine text then p
  else
    match Directive.parse text with
    | .error _ => p
    | .ok d =>
        match p.apply d with
        | .error _ => p
        | .ok (_, p') => p'

structure Survey where
  preprocessor : Preprocessor
  scanner : Scanner

namespace Survey

def start (macros : MacroTable) : Survey :=
  ⟨.start macros, .start⟩

/-- The lexemes of a line that is neither a directive nor skipped. -/
def lexemes (s : Survey) (line : Text) : List Lexeme :=
  if Line.isDirective line || s.preprocessor.suppressed then []
  else
    match (s.scanner.scan line).1 with
    | .error _ => []
    | .ok ls => ls

def step (s : Survey) (line : Text) : Survey :=
  if Line.isDirective line then
    { s with preprocessor := s.preprocessor.run (Line.directiveText line) }
  else if s.preprocessor.suppressed then s
  else { s with scanner := (s.scanner.scan line).2 }

/-- A line with lexemes is no directive. -/
theorem lexemes_eq_nil_or (s : Survey) (line : Text) :
    s.lexemes line = [] ∨ (s.step line).preprocessor = s.preprocessor := by
  cases hdirective : Line.isDirective line with
  | true => simp [lexemes, hdirective]
  | false =>
      right
      simp only [step, hdirective]
      split
      · contradiction
      · split <;> rfl

/-- The lexemes of each line, with the macro table in front of it. -/
def rows (s : Survey) : List Text → List (MacroTable × List Lexeme)
  | [] => []
  | line :: lines => (s.preprocessor.macros, s.lexemes line) :: (s.step line).rows lines

end Survey

/-- The findings that report an invocation. -/
def Finding.isExpansion : Finding → Bool
  | .macroExpanded .. => true
  | _ => false

/-- The invocations reported among some events. -/
def Event.expansions (events : List Event) : List Diagnostic :=
  (diagnostics events).filter (·.finding.isExpansion)

@[simp] theorem Event.expansions_append (es fs : List Event) :
    expansions (es ++ fs) = expansions es ++ expansions fs := by
  simp [expansions]

namespace Directive

/-- What a directive may have reported. -/
def CallsFor (d : Directive) : Finding → Prop
  | .unsupportedDirective text => d = .unsupported text
  | .includeNotFound path | .includeTooDeep path _ => ∃ system, d = .includeFile path system
  | .undefinedMacro name => d = .undef name
  | .macroExpanded .. => False

end Directive

/-- What a directive leaves to do is to include the file that it names, or to report what it calls
for. -/
theorem Preprocessor.outcome_cases {p p' : Preprocessor} {d : Directive} {outcome : Outcome}
    (h : p.apply d = .ok (outcome, p')) :
    outcome = .applied ∨
      (∃ path system, d = .includeFile path system ∧ outcome = .includeFile path) ∨
      ∃ finding, outcome = .report finding ∧ d.CallsFor finding := by
  cases applied_of_eq h with
  | passedOver | defined | erased | turned => exact .inl rfl
  | included path system => exact .inr (.inl ⟨path, system, rfl, rfl⟩)
  | unbound | reported => exact .inr (.inr ⟨_, rfl, rfl⟩)

theorem Directive.isExpansion_of_callsFor {d : Directive} {finding : Finding}
    (h : d.CallsFor finding) : finding.isExpansion = false := by
  cases finding with
  | macroExpanded name replacement => exact h.elim
  | _ => rfl

/-- Only an include line leads into another file. -/
theorem Preprocessor.outcome_of_apply {p p' : Preprocessor} {d : Directive} {outcome : Outcome}
    (h : p.apply d = .ok (outcome, p')) (hd : ∀ path system, d ≠ .includeFile path system) :
    outcome = .applied ∨
      ∃ finding, outcome = .report finding ∧ finding.isExpansion = false := by
  rcases outcome_cases h with houtcome | ⟨path, system, hinclude, _⟩ | ⟨finding, houtcome, hfinding⟩
  · exact .inl houtcome
  · exact absurd hinclude (hd path system)
  · exact .inr ⟨finding, houtcome, Directive.isExpansion_of_callsFor hfinding⟩

namespace Reader

def survey (r : Reader) : Survey :=
  ⟨r.preprocessor, r.scanner⟩

variable {r : Reader}

/-- What a reading without an inclusion leaves of the reader, and what it does not report. -/
structure Plain (reading : Reading Unit) (r : Reader) (p : Preprocessor) : Prop where
  reader : reading.reader = { r with preprocessor := p }
  silent : Event.expansions reading.events = []

theorem settle_plain (env : Environment) (r : Reader) {p p' : Preprocessor} {d : Directive}
    {outcome : Outcome} (h : p.apply d = .ok (outcome, p'))
    (hd : ∀ path system, d ≠ .includeFile path system) :
    Plain (settle env { r with preprocessor := p' } outcome) r p' := by
  rcases Preprocessor.outcome_of_apply h hd with rfl | ⟨finding, rfl, hfinding⟩
  · exact ⟨rfl, rfl⟩
  · refine ⟨rfl, ?_⟩
    simp [settle, report, diagnosed, Event.expansions, Event.diagnostics, Event.diagnostic?,
      hfinding]

theorem expansions_events (p : Preprocessor) (line : Nat) (d : Directive) :
    Event.expansions (.directive line d :: p.events d) = [] := by
  unfold Preprocessor.events
  split
  · rfl
  · cases d <;> rfl

theorem direct_plain (env : Environment) (r : Reader) {text : Text}
    (h : ∀ path system, Directive.parse text ≠ .ok (.includeFile path system)) :
    Plain (r.direct env text) r (r.preprocessor.run text) := by
  unfold direct Preprocessor.run isSuppressed
  split
  · exact ⟨rfl, rfl⟩
  · cases hparse : Directive.parse text with
    | error e => exact ⟨rfl, rfl⟩
    | ok d =>
        have hd : ∀ path system, d ≠ .includeFile path system := by
          intro path system heq
          exact h path system (by rw [hparse, heq])
        dsimp only
        unfold apply
        cases happly : r.preprocessor.apply d with
        | error e => exact ⟨rfl, expansions_events r.preprocessor r.lineNumber d⟩
        | ok result =>
            obtain ⟨outcome, p'⟩ := result
            have hsettle := settle_plain env r happly hd
            refine ⟨hsettle.reader, ?_⟩
            rw [Event.expansions_append, expansions_events, hsettle.silent]
            rfl

theorem parse_ne_of_includedName? {line : Text} (hline : Line.includedName? line = none)
    (hdirective : Line.isDirective line = true) (path : Path) (system : Bool) :
    Directive.parse (Line.directiveText line) ≠ .ok (.includeFile path system) := by
  intro hparse
  unfold Line.directiveText at hparse
  simp [Line.includedName?, hdirective, hparse] at hline

/-- A reading of a line agrees with a survey: in what it leaves to the lines behind, in the content
of the line, and in that it reports no invocation. -/
structure Surveyed (s : Survey) (line : Text) (reading : Reading LineParts)
    (parts : LineParts) : Prop where
  survey : reading.reader.survey = s.step line
  content : parts.content = (s.lexemes line).dropWhile (·.isLiminal)
  silent : Event.expansions reading.events = []

theorem surveyed_readText {env : Environment} {line : Text}
    (hline : Line.includedName? line = none) {parts : LineParts}
    (h : (r.readText env line).result = .ok parts) :
    Surveyed r.survey line (r.readText env line) parts := by
  have hcases := readsTo_readText env r line
  generalize r.readText env line = reading at h hcases ⊢
  cases hcases with
  | directive hdirective hcontent =>
      obtain ⟨hreader, hsilent⟩ :=
        direct_plain env r (parse_ne_of_includedName? hline hdirective)
      rw [eq_of_map_eq_ok h]
      refine ⟨?_, ?_, hsilent⟩
      · simp [hreader, survey, Survey.step, hdirective]
      · simp [hcontent, Survey.lexemes, hdirective]
  | skipped hdirective hs =>
      have hs : r.preprocessor.suppressed = true := hs
      cases h
      constructor
      · simp [survey, Survey.step, hdirective, hs]
      · simp [survey, Survey.lexemes, hs]
      · rfl
  | unscanned => cases h
  | scanned hdirective hs hscan =>
      have hs : r.preprocessor.suppressed = false := hs
      cases h
      constructor
      · simp [survey, Survey.step, hdirective, hs, hscan]
      · simp [survey, Survey.lexemes, hdirective, hs, hscan, LineParts.ofLexemes]
      · rfl

/-- A line that includes no file is read as the survey says. -/
theorem surveyed_read {env : Environment} {line : Text} (hline : Line.includedName? line = none)
    {parts : LineParts} (h : (r.read env (.ok line)).result = .ok parts) :
    Surveyed r.survey line (r.read env (.ok line)) parts :=
  surveyed_readText (r := { r with lineNumber := r.lineNumber + 1 }) hline h

end Reader

end FreeForm
