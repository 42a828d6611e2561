import FreeForm.Diagnostic
import FreeForm.Directive

namespace FreeForm

/-!
# Events

What can be watched while a source is lexed, in order: the directives read, applied and skipped, the
files included, the tokens joined, the names replaced, and the diagnostics. Each event is a record
of the log; whoever collects the diagnostics instead leaves them out of it.
-/

inductive Event where
  /-- A directive was read on a line. -/
  | directive (line : Nat) (d : Directive)
  /-- A directive line was passed over, unread. -/
  | passedOver (line : Nat)
  /-- A directive was not applied. -/
  | suppressed (d : Directive)
  /-- A macro is about to be defined. -/
  | defining (name body : Text)
  /-- A file is about to be included. -/
  | including (path : Path)
  /-- The parts of a token were joined. -/
  | rejoined (value : Text)
  /-- A name was replaced word for word. -/
  | renamed (name replacement : Text)
  /-- A file was lexed to its end. -/
  | lexed (path : Path) (statements inclusions : Nat)
  | diagnosed (d : Diagnostic)
  deriving DecidableEq, Repr

namespace Event

def severity : Event → Severity
  | .passedOver _ | .suppressed _ | .rejoined _ => .trace
  | .directive .. | .defining .. | .renamed .. => .debug
  | .including _ | .lexed .. => .info
  | .diagnosed d => d.severity

def message : Event → Text
  | .directive line d => "line ".toList ++ Text.decimal line ++ ": ".toList ++ d.describe
  | .passedOver line =>
      "line ".toList ++ Text.decimal line ++ ": skipping suppressed directive".toList
  | .suppressed d => "skipping ".toList ++ d.describe ++ " in suppressed region".toList
  | .defining name body => "define ".toList ++ name ++ " as ".toList ++ body.quoted
  | .including path => "including ".toList ++ path
  | .rejoined value => "rejoined ".toList ++ value.quoted ++ " across a continuation".toList
  | .renamed name replacement => "replacing ".toList ++ name ++ " with ".toList ++ replacement
  | .lexed path statements inclusions =>
      path ++ ": ".toList ++ Text.decimal statements ++ " statements, ".toList ++
        Text.decimal inclusions ++ " includes".toList
  | .diagnosed d => "f90lex: ".toList ++ d.message

def diagnostic? : Event → Option Diagnostic
  | .diagnosed d => some d
  | _ => none

/-- The diagnostics among some events. -/
def diagnostics (events : List Event) : List Diagnostic :=
  events.filterMap diagnostic?

/-- The events other than diagnostics. -/
def others (events : List Event) : List Event :=
  events.filter (·.diagnostic?.isNone)

@[simp] theorem diagnostics_append (es fs : List Event) :
    diagnostics (es ++ fs) = diagnostics es ++ diagnostics fs := by
  simp [diagnostics]

@[simp] theorem others_append (es fs : List Event) :
    others (es ++ fs) = others es ++ others fs := by
  simp [others]

end Event

end FreeForm
