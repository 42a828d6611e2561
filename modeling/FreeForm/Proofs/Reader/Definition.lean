import FreeForm.Proofs.Reader.Conditional
import FreeForm.Proofs.Reader.KeywordLine

namespace FreeForm

/-!
# Reading definitions

The line that defines a name can be written with any white space around the name and around the body:
it is parsed into the name and the body without it. A row of such lines is passed over, as far as
every body scans, and leaves the table that the definitions make of the one in front.
-/

namespace Line

/-- The line that defines a name. -/
def define (name body : Text) : Text :=
  "#define ".toList ++ (name ++ ' ' :: body) ++ ['\n']

theorem isDirective_define (name body : Text) : isDirective (define name body) = true := rfl

theorem getLast?_define (name body : Text) : (define name body).getLast? = some '\n' := by
  unfold define
  rw [List.getLast?_concat]

/-- A definition is parsed into its name and its body, without the white space around both. -/
theorem parse_define {name : Text} (body : Text) (hname : Text.trim name ≠ [])
    (hword : ∀ c ∈ Text.trim name, Unicode.isWhiteSpace c = false) :
    Directive.parse (directiveText (define name body)) =
      .ok (.define (Text.trim name) (Text.trim body)) := by
  have hline : define name body = keyword .define (name ++ ' ' :: body) := rfl
  rw [hline, parse_keyword]
  simp only [Directive.ofKeyword, Text.firstWord, Text.splitWord_padded hname hword,
    Directive.required, if_neg hname]
  rfl

end Line

namespace Configuration

/-- A definition without the white space around its name and its body. -/
def trimmed (definition : Text × Text) : Text × Text :=
  (definition.1.trim, definition.2.trim)

end Configuration

namespace Reader

variable (env : Environment) {r : Reader} (hactive : r.isSuppressed = false) {line name body : Text}
  (hline : Line.isDirective line = true)
  (hparse : Directive.parse (Line.directiveText line) = .ok (.define name body))
include hactive hline hparse

/-- A definition leaves the table with its name bound. -/
theorem readsLiminal_define {macros : MacroTable} (h : r.macros.define name body = .ok macros) :
    r.ReadsLiminal env line ((r.withMacros macros).atLine (r.lineNumber + 1)) := by
  have hskips : r.preprocessor.skips (.define name body) = false := by
    have hs : r.preprocessor.suppressed = false := hactive
    simp [Preprocessor.skips, hs]
  have hdefine : r.preprocessor.macros.define name body = .ok macros := h
  refine readsLiminal_of_applied env r (p := { r.preprocessor with macros := macros }) hline hparse
    (by rw [hactive, Bool.false_and]) ?_
  simp [Preprocessor.apply, hskips, hdefine, Except.map]

/-- A definition whose body does not scan is an error. -/
theorem result_read_define_error {e : LexError} (h : r.macros.define name body = .error e) :
    (r.read env (.ok line)).result = .error (e.atLine (r.lineNumber + 1)) := by
  have hs : r.preprocessor.suppressed = false := hactive
  have hdefine : r.preprocessor.macros.define name body = .error e := h
  obtain ⟨lexemes, _, hread⟩ :=
    readText_of_isDirective { r with lineNumber := r.lineNumber + 1 } hline
  unfold read
  dsimp only
  rw [hread]
  simp [direct, apply, Preprocessor.apply, Preprocessor.skips, isSuppressed, hs, hparse, hdefine,
    Except.map]

end Reader

end FreeForm
