import FreeForm.Event
import FreeForm.MacroTable

namespace FreeForm

/-!
# The preprocessor

A macro table and one flag that says whether source is being skipped. Conditionals do not nest: the
next `#endif` ends a skipped region whatever was opened inside it. While source is skipped only
conditionals take effect.
-/

structure Preprocessor where
  macros : MacroTable
  suppressed : Bool
  deriving DecidableEq

/-- What is left to do after a directive. -/
inductive Outcome where
  | applied
  /-- Lex the named file in place of the directive. -/
  | includeFile (path : Path)
  | report (finding : Finding)
  deriving DecidableEq, Repr

namespace Preprocessor

def start (macros : MacroTable) : Preprocessor := ⟨macros, false⟩

/-- Whether a directive is without effect because source is being skipped. -/
def skips (p : Preprocessor) (d : Directive) : Bool :=
  p.suppressed && !d.isConditional

/-- Carries out a directive. A definition that fails leaves everything as it was. -/
def apply (p : Preprocessor) (d : Directive) : Except LexError (Outcome × Preprocessor) :=
  if p.skips d then .ok (.applied, p)
  else
    match d with
    | .define name body =>
        (p.macros.define name body).map fun macros => (.applied, { p with macros := macros })
    | .undef name =>
        if p.macros.contains name then
          .ok (.applied, { p with macros := p.macros.erase name })
        else .ok (.report (.undefinedMacro name), p)
    | .ifdef name =>
        .ok (.applied, { p with suppressed := p.suppressed || !p.macros.contains name })
    | .ifndef name =>
        .ok (.applied, { p with suppressed := p.suppressed || p.macros.contains name })
    | .otherwise => .ok (.applied, { p with suppressed := !p.suppressed })
    | .endif => .ok (.applied, { p with suppressed := false })
    | .includeFile path _ => .ok (.includeFile path, p)
    | .unsupported text => .ok (.report (.unsupportedDirective text), p)

/-- The events of carrying out a directive. -/
def events (p : Preprocessor) (d : Directive) : List Event :=
  if p.skips d then [.suppressed d]
  else
    match d with
    | .define name body => [.defining name body]
    | _ => []

end Preprocessor

end FreeForm
