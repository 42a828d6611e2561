import FreeForm.Proofs.Reader.Survey

namespace FreeForm

/-!
# Readers that differ in what they report

What a reader makes of a line depends on its scanner and its preprocessor, that is on its survey.
The name of the source, the number of the line and the documents kept so far only go into what is
reported, and the number of the line into an error. A reader that only counts its lines differently
is also left the same, documents included.
-/

/-- The same outcome, up to the line of an error. -/
inductive SameOutcome {α : Type} : Except LexError α → Except LexError α → Prop
  | error {e f : LexError} (h : e.atLine 0 = f.atLine 0) : SameOutcome (.error e) (.error f)
  | ok (a : α) : SameOutcome (.ok a) (.ok a)

theorem SameOutcome.map {α β : Type} {x y : Except LexError α} (h : SameOutcome x y) (f : α → β) :
    SameOutcome (x.map f) (y.map f) := by
  cases h with
  | error h => exact .error h
  | ok a => exact .ok (f a)

theorem sameOutcome_atLine {α : Type} (m n : Nat) (e : LexError) :
    SameOutcome (α := α) (.error (e.atLine m)) (.error (e.atLine n)) :=
  .error (by simp)

structure Reading.Alike {α : Type} (x y : Reading α) : Prop where
  result : SameOutcome x.result y.result
  survey : x.reader.survey = y.reader.survey

namespace Reader

theorem exists_of_survey {r r' : Reader} (h : r.survey = r'.survey) :
    ∃ source number inclusions, r' = ⟨source, number, r.scanner, r.preprocessor, inclusions⟩ := by
  obtain ⟨hpreprocessor, hscanner⟩ := Survey.mk.inj h
  exact ⟨r'.source, r'.lineNumber, r'.inclusions, by rw [hpreprocessor, hscanner]⟩

variable (env : Environment) {r r' : Reader}

theorem includeFile_alike (h : r.survey = r'.survey) (name : Path) :
    (r.includeFile env name).Alike (r'.includeFile env name) := by
  obtain ⟨source, number, inclusions, rfl⟩ := exists_of_survey h
  unfold includeFile macros
  dsimp only
  split
  · exact ⟨.ok (), rfl⟩
  · exact ⟨.ok (), rfl⟩
  · exact ⟨.ok (), rfl⟩
  · exact ⟨.ok (), rfl⟩
  · exact ⟨.error rfl, rfl⟩
  · rename_i bytes lex _ _
    cases (lex (Path.join env.root name) (.ofBytes bytes) r.preprocessor.macros).result with
    | error e => exact ⟨.error rfl, rfl⟩
    | ok d => exact ⟨.ok (), rfl⟩

theorem settle_alike (h : r.survey = r'.survey) (outcome : Outcome) :
    (r.settle env outcome).Alike (r'.settle env outcome) := by
  cases outcome with
  | applied => exact ⟨.ok (), h⟩
  | includeFile name => exact includeFile_alike env h name
  | report finding => exact ⟨.ok (), h⟩

theorem apply_alike (h : r.survey = r'.survey) (d : Directive) :
    (r.apply env d).Alike (r'.apply env d) := by
  obtain ⟨source, number, inclusions, rfl⟩ := exists_of_survey h
  unfold apply
  dsimp only
  cases happly : r.preprocessor.apply d with
  | error e => exact ⟨sameOutcome_atLine _ _ e, rfl⟩
  | ok result =>
      obtain ⟨outcome, p⟩ := result
      have hbehind : survey { r with preprocessor := p } =
          survey ⟨source, number, r.scanner, p, inclusions⟩ := rfl
      obtain ⟨hresult, hsurvey⟩ := settle_alike env hbehind outcome
      exact ⟨hresult, hsurvey⟩

theorem direct_alike (h : r.survey = r'.survey) (text : Text) :
    (r.direct env text).Alike (r'.direct env text) := by
  obtain ⟨source, number, inclusions, rfl⟩ := exists_of_survey h
  unfold direct isSuppressed
  split
  · exact ⟨.ok (), rfl⟩
  · cases hparse : Directive.parse text with
    | error e => exact ⟨sameOutcome_atLine _ _ e, rfl⟩
    | ok d => exact apply_alike env h d

theorem readText_alike (h : r.survey = r'.survey) (line : Text) :
    (r.readText env line).Alike (r'.readText env line) := by
  obtain ⟨source, number, inclusions, rfl⟩ := exists_of_survey h
  unfold readText isSuppressed
  dsimp only
  split
  · exact ⟨.ok _, rfl⟩
  · cases hscan : r.scanner.scan line with
    | mk result scanner =>
        cases result with
        | error e => exact ⟨sameOutcome_atLine _ _ e, rfl⟩
        | ok lexemes =>
            dsimp only
            cases directiveText? lexemes with
            | none => exact ⟨.ok _, rfl⟩
            | some text =>
                have hbehind : survey { r with scanner := scanner } =
                    survey ⟨source, number, scanner, r.preprocessor, inclusions⟩ := rfl
                obtain ⟨hresult, hsurvey⟩ := direct_alike env hbehind text
                exact ⟨hresult.map _, hsurvey⟩

theorem read_alike (h : r.survey = r'.survey) (line : SourceLine) :
    (r.read env line).Alike (r'.read env line) := by
  cases line with
  | error fault => exact ⟨.error rfl, h⟩
  | ok text =>
      have hcounted : survey { r with lineNumber := r.lineNumber + 1 } =
          survey { r' with lineNumber := r'.lineNumber + 1 } := h
      exact readText_alike env hcounted text

end Reader

namespace Reader

/-- The reader as it would be at another line. -/
def atLine (r : Reader) (n : Nat) : Reader :=
  { r with lineNumber := n }

@[simp] theorem atLine_atLine (r : Reader) (m n : Nat) : (r.atLine m).atLine n = r.atLine n := rfl

@[simp] theorem survey_atLine (r : Reader) (n : Nat) : (r.atLine n).survey = r.survey := rfl

variable (env : Environment) (r : Reader) (n : Nat)

theorem reader_includeFile_atLine (name : Path) :
    ((r.atLine n).includeFile env name).reader = (r.includeFile env name).reader.atLine n := by
  unfold includeFile macros atLine
  dsimp only
  split
  case h_6 bytes lex _ _ =>
    cases (lex (Path.join env.root name) (.ofBytes bytes) r.preprocessor.macros).result <;> rfl
  all_goals rfl

theorem reader_settle_atLine (outcome : Outcome) :
    ((r.atLine n).settle env outcome).reader = (r.settle env outcome).reader.atLine n := by
  cases outcome with
  | applied => rfl
  | includeFile name => exact reader_includeFile_atLine env r n name
  | report finding => rfl

theorem reader_apply_atLine (d : Directive) :
    ((r.atLine n).apply env d).reader = (r.apply env d).reader.atLine n := by
  have hpreprocessor : (r.atLine n).preprocessor = r.preprocessor := rfl
  unfold apply
  dsimp only
  rw [hpreprocessor]
  cases r.preprocessor.apply d with
  | error e => rfl
  | ok result => exact reader_settle_atLine env { r with preprocessor := result.2 } n result.1

theorem reader_direct_atLine (text : Text) :
    ((r.atLine n).direct env text).reader = (r.direct env text).reader.atLine n := by
  have hsuppressed : (r.atLine n).isSuppressed = r.isSuppressed := rfl
  unfold direct
  rw [hsuppressed]
  split
  · rfl
  · cases Directive.parse text with
    | error e => rfl
    | ok d => exact reader_apply_atLine env r n d

theorem reader_readText_atLine (line : Text) :
    ((r.atLine n).readText env line).reader = (r.readText env line).reader.atLine n := by
  have hsuppressed : (r.atLine n).isSuppressed = r.isSuppressed := rfl
  have hscanner : (r.atLine n).scanner = r.scanner := rfl
  unfold readText
  rw [hsuppressed, hscanner]
  split
  · rfl
  · cases r.scanner.scan line with
    | mk result scanner =>
        cases result with
        | error e => rfl
        | ok lexemes =>
            dsimp only
            cases directiveText? lexemes with
            | none => rfl
            | some text => exact reader_direct_atLine env { r with scanner := scanner } n text

/-- Reading leaves the same behind at every line of a source, but for the number of the line. -/
theorem reader_read_atLine (line : SourceLine) :
    ((r.atLine n).read env line).reader = (r.read env line).reader.atLine (n + 1) := by
  cases line with
  | error fault => rfl
  | ok text =>
      exact reader_readText_atLine env { r with lineNumber := r.lineNumber + 1 } (n + 1) text

end Reader

end FreeForm
