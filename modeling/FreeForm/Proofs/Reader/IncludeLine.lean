import FreeForm.Proofs.Reader.Survey

namespace FreeForm

/-!
# Lines that include a file

Whether a line includes a file, and under which name, can be told from the line and from whether
source is being skipped. No other line depends on how files are lexed, and a line that includes a
file depends on nothing but what becomes of that file.
-/

namespace Reader

/-- The name on the line, if the line includes a file. -/
def inclusion? (r : Reader) : SourceLine → Option Path
  | .error _ => none
  | .ok line => if r.isSuppressed then none else Line.includedName? line

theorem parse_of_includedName? {line : Text} {name : Path}
    (h : Line.includedName? line = some name) :
    Line.isDirective line = true ∧
      ∃ system, Directive.parse (Line.directiveText line) = .ok (.includeFile name system) := by
  unfold Line.includedName? at h
  split at h
  · rename_i hdirective
    split at h
    · rename_i path system hparse
      cases h
      exact ⟨hdirective, system, hparse⟩
    · cases h
  · cases h

variable {env : Environment} {r : Reader}

theorem includeFile_congr {files : Files} {root name : Path} (maxDepth : Nat)
    {lex lex' : Path → Source → MacroTable → Run}
    (h : ∀ bytes, files (Path.join root name) = .file bytes →
      lex (Path.join root name) (.ofBytes bytes) r.macros =
        lex' (Path.join root name) (.ofBytes bytes) r.macros) :
    r.includeFile ⟨files, root, maxDepth, some lex⟩ name =
      r.includeFile ⟨files, root, maxDepth, some lex'⟩ name := by
  unfold includeFile
  dsimp only
  cases hentry : files (Path.join root name) with
  | file bytes =>
      dsimp only
      rw [h bytes hentry]
  | unreadable fault => rfl
  | directory => rfl
  | absent fault => rfl

/-- A directive that is passed over, or includes no file, is carried out without lexing one. -/
theorem direct_congr (env' : Environment) {text : Text}
    (h : r.isSuppressed = true ∨
      ∀ path system, Directive.parse text ≠ .ok (.includeFile path system)) :
    r.direct env text = r.direct env' text := by
  unfold direct
  split
  · rfl
  · cases hparse : Directive.parse text with
    | error e => rfl
    | ok d =>
        dsimp only
        unfold apply
        cases happly : r.preprocessor.apply d with
        | error e => rfl
        | ok applied =>
            obtain ⟨outcome, preprocessor⟩ := applied
            have houtcome : ∀ name, outcome ≠ .includeFile name := by
              rintro name rfl
              by_cases hd : ∃ path system, d = .includeFile path system
              · obtain ⟨path, system, rfl⟩ := hd
                have hs : r.preprocessor.suppressed = true :=
                  h.resolve_right fun hno => hno path system hparse
                simp [Preprocessor.apply, Preprocessor.skips, hs, Directive.isConditional] at happly
              · rcases Preprocessor.outcome_of_apply happly fun path system heq =>
                  hd ⟨path, system, heq⟩ with houtcome | ⟨finding, houtcome, _⟩ <;> cases houtcome
            cases outcome with
            | applied => rfl
            | includeFile name => exact absurd rfl (houtcome name)
            | report finding => rfl

/-- A line that includes no file is read without lexing one. -/
theorem read_of_inclusion?_eq_none {line : SourceLine} (h : r.inclusion? line = none)
    (env env' : Environment) : r.read env line = r.read env' line := by
  cases line with
  | error fault => rfl
  | ok line =>
      have hcounted : inclusion? { r with lineNumber := r.lineNumber + 1 } (.ok line) = none := h
      unfold read
      dsimp only
      generalize ({ r with lineNumber := r.lineNumber + 1 } : Reader) = r' at hcounted
      cases hdirective : Line.isDirective line with
      | true =>
          have hdirect : r'.isSuppressed = true ∨ ∀ path system,
              Directive.parse (Line.directiveText line) ≠ .ok (.includeFile path system) := by
            cases hs : r'.isSuppressed with
            | true => exact .inl rfl
            | false =>
                rw [inclusion?, hs] at hcounted
                exact .inr (parse_ne_of_includedName? hcounted hdirective)
          obtain ⟨lexemes, _, hread⟩ := r'.readText_of_isDirective hdirective
          rw [hread, hread, direct_congr env' hdirect]
      | false =>
          cases hs : r'.isSuppressed with
          | true => rw [readText_of_skipped hs hdirective, readText_of_skipped hs hdirective]
          | false => rw [readText_of_scan env hs hdirective, readText_of_scan env' hs hdirective]

/-- A line that includes a file leaves no content, and does what including the file does. -/
theorem read_of_inclusion? {line : SourceLine} {name : Path}
    (h : r.inclusion? line = some name) :
    ∃ lead event, ∀ env, r.read env line =
      let including := includeFile env { r with lineNumber := r.lineNumber + 1 } name
      ⟨including.result.map fun _ => ⟨lead, []⟩, including.reader, event :: including.events⟩ := by
  cases line with
  | error fault => cases h
  | ok line =>
      cases hs : r.isSuppressed with
      | true => simp [inclusion?, hs] at h
      | false =>
          have hname : Line.includedName? line = some name := by simpa [inclusion?, hs] using h
          obtain ⟨hdirective, system, hparse⟩ := parse_of_includedName? hname
          obtain ⟨lexemes, hcontent, hread⟩ :=
            readText_of_isDirective { r with lineNumber := r.lineNumber + 1 } hdirective
          have hactive : r.preprocessor.suppressed = false := hs
          refine ⟨(LineParts.ofLexemes lexemes).lead,
            .directive (r.lineNumber + 1) (.includeFile name system), fun env => ?_⟩
          unfold read
          dsimp only
          rw [hread]
          simp [direct, hparse, apply, settle, Preprocessor.apply, Preprocessor.events,
            Preprocessor.skips, hactive, isSuppressed, ← hcontent]

/-- A line is read alike wherever the file that it includes is lexed alike. -/
theorem read_congr {files : Files} {root : Path} {maxDepth : Nat}
    {lex lex' : Path → Source → MacroTable → Run} {line : SourceLine}
    (h : ∀ name bytes, r.inclusion? line = some name →
      files (Path.join root name) = .file bytes →
      lex (Path.join root name) (.ofBytes bytes) r.macros =
        lex' (Path.join root name) (.ofBytes bytes) r.macros) :
    r.read ⟨files, root, maxDepth, some lex⟩ line =
      r.read ⟨files, root, maxDepth, some lex'⟩ line := by
  cases hname : r.inclusion? line with
  | none => exact read_of_inclusion?_eq_none hname _ _
  | some name =>
      obtain ⟨lead, event, hread⟩ := read_of_inclusion? hname
      have hfile := includeFile_congr (r := { r with lineNumber := r.lineNumber + 1 }) maxDepth
        (h name · hname)
      simp only [hread, hfile]

end Reader

end FreeForm
