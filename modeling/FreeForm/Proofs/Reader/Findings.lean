import FreeForm.Proofs.Reader.Survey

namespace FreeForm

/-!
# What is reported of a line

A reader that is in front of a line reports nothing but what the directive on that line calls for, at
the number that the line gets when it is read. The files that a line includes may report more; here
they are silent.
-/

/-- A line with the given lexemes bears a finding out: it holds the name that was replaced, or else
the directive in question. -/
def Line.Bears (line : Text) (lexemes : List Lexeme) : Finding → Prop
  | .macroExpanded name _ => ∃ l ∈ lexemes, l.isSemantic = true ∧ l.text = name
  | finding => isDirective line = true ∧
      ∃ d, Directive.parse (directiveText line) = .ok d ∧ d.CallsFor finding

theorem Line.bears_of_callsFor {line : Text} {d : Directive} {finding : Finding}
    (hline : isDirective line = true) (hparse : Directive.parse (directiveText line) = .ok d)
    (h : d.CallsFor finding) (lexemes : List Lexeme) : Bears line lexemes finding := by
  cases finding with
  | macroExpanded name replacement => exact h.elim
  | unsupportedDirective text => exact ⟨hline, d, hparse, h⟩
  | includeNotFound path => exact ⟨hline, d, hparse, h⟩
  | includeTooDeep path limit => exact ⟨hline, d, hparse, h⟩
  | undefinedMacro name => exact ⟨hline, d, hparse, h⟩

namespace Environment

/-- Lexing an included file leaves no trace. -/
def Silent (env : Environment) : Prop :=
  ∀ lex, env.nested = some lex → ∀ path source macros, (lex path source macros).events = []

end Environment

namespace Reader

/-- The diagnostic is of the line that the reader is in front of. -/
structure Reports (r : Reader) (line : SourceLine) (d : Diagnostic) : Prop where
  source : d.source = r.source
  number : d.line = r.lineNumber + 1
  borne : ∃ text, line = .ok text ∧ Line.Bears text (r.survey.lexemes text) d.finding

/-- A diagnostic of the line that has been counted last, which the directive calls for. -/
def CalledFor (r : Reader) (directive : Directive) (d : Diagnostic) : Prop :=
  directive.CallsFor d.finding ∧ d.source = r.source ∧ d.line = r.lineNumber

theorem calledFor_of_report {r : Reader} {directive : Directive} {finding : Finding}
    (h : directive.CallsFor finding) :
    ∀ d ∈ Event.diagnostics (r.report finding).events, r.CalledFor directive d := by
  intro d hd
  obtain rfl := List.mem_singleton.mp hd
  exact ⟨h, rfl, rfl⟩

variable {env : Environment} (hsilent : env.Silent) (r : Reader)
include hsilent

theorem calledFor_of_includeFile (path : Path) (system : Bool) :
    ∀ d ∈ Event.diagnostics (r.includeFile env path).events,
      r.CalledFor (.includeFile path system) d := by
  unfold includeFile
  dsimp only
  split
  · exact calledFor_of_report ⟨system, rfl⟩
  · exact calledFor_of_report ⟨system, rfl⟩
  · exact calledFor_of_report ⟨system, rfl⟩
  · exact calledFor_of_report ⟨system, rfl⟩
  · exact List.forall_mem_nil _
  · rename_i bytes lex _ hnested
    have hnothing := hsilent lex hnested (Path.join env.root path) (.ofBytes bytes) r.macros
    split <;> rw [hnothing] <;> exact List.forall_mem_nil _

theorem calledFor_of_direct (text : Text) :
    ∀ d ∈ Event.diagnostics (r.direct env text).events,
      ∃ directive, Directive.parse text = .ok directive ∧ r.CalledFor directive d := by
  unfold direct
  split
  · exact List.forall_mem_nil _
  · cases hparse : Directive.parse text with
    | error e => exact List.forall_mem_nil _
    | ok directive =>
        have hquiet : Event.diagnostics
            (.directive r.lineNumber directive :: r.preprocessor.events directive) = [] := by
          unfold Preprocessor.events
          split
          · rfl
          · cases directive <;> rfl
        intro d hd
        refine ⟨directive, rfl, ?_⟩
        dsimp only at hd
        unfold apply at hd
        cases happly : r.preprocessor.apply directive with
        | error e =>
            simp only [happly, hquiet] at hd
            cases hd
        | ok applied =>
            obtain ⟨outcome, preprocessor⟩ := applied
            simp only [happly, Event.diagnostics_append, hquiet, List.nil_append] at hd
            rcases Preprocessor.outcome_cases happly with
              rfl | ⟨path, system, rfl, rfl⟩ | ⟨finding, rfl, hfinding⟩
            · cases hd
            · exact calledFor_of_includeFile hsilent
                { r with preprocessor := preprocessor } path system d hd
            · exact calledFor_of_report (r := { r with preprocessor := preprocessor }) hfinding d hd

/-- What reading a line reports is of that line. -/
theorem reports_of_read (line : SourceLine) :
    ∀ d ∈ Event.diagnostics (r.read env line).events, r.Reports line d := by
  intro d hd
  cases line with
  | error fault => cases hd
  | ok text =>
      have hread : d ∈ Event.diagnostics
          (readText env { r with lineNumber := r.lineNumber + 1 } text).events := hd
      have hcases := readsTo_readText env { r with lineNumber := r.lineNumber + 1 } text
      generalize readText env { r with lineNumber := r.lineNumber + 1 } text = reading at hread hcases
      cases hcases with
      | directive hline hcontent =>
          obtain ⟨directive, hparse, hfinding, hsource, hnumber⟩ :=
            calledFor_of_direct hsilent _ _ d hread
          exact ⟨hsource, hnumber, text, rfl, Line.bears_of_callsFor hline hparse hfinding _⟩
      | skipped | unscanned | scanned => cases hread

omit hsilent in
/-- The content of a line is made of lexemes that the line has to the reader in front of it. -/
theorem mem_lexemes_of_mem_content {line : SourceLine} {parts : LineParts}
    (h : (r.read env line).result = .ok parts) {l : Lexeme} (hl : l ∈ parts.content) :
    ∃ text, line = .ok text ∧ l ∈ r.survey.lexemes text := by
  cases line with
  | error fault => cases h
  | ok text =>
      refine ⟨text, rfl, ?_⟩
      have hread : (readText env { r with lineNumber := r.lineNumber + 1 } text).result =
          .ok parts := h
      have hcases := readsTo_readText env { r with lineNumber := r.lineNumber + 1 } text
      generalize readText env { r with lineNumber := r.lineNumber + 1 } text = reading at hread hcases
      cases hcases with
      | directive hline hcontent =>
          rw [eq_of_map_eq_ok hread, hcontent] at hl
          cases hl
      | skipped =>
          cases hread
          cases hl
      | unscanned => cases hread
      | scanned hline hs hscan =>
          cases hread
          have hactive : r.preprocessor.suppressed = false := hs
          have hscan : r.scanner.scan text = _ := hscan
          simp only [Survey.lexemes, hline, survey, hactive, hscan]
          exact (List.dropWhile_sublist _).mem hl

end Reader

end FreeForm
