import FreeForm.Fault

namespace FreeForm

/-!
# Diagnostics

What the preprocessor meets and steps over: directives it does not know, files it cannot find,
includes nested too deep, names that were never defined, and the macros it expands. A diagnostic
says where it arose, in the lines of the source that was being read.
-/

inductive Severity where
  | trace
  | debug
  | info
  | warn
  | error
  deriving DecidableEq, Repr

def Severity.label : Severity → String
  | .trace => "TRACE"
  | .debug => "DEBUG"
  | .info => "INFO"
  | .warn => "WARN"
  | .error => "ERROR"

inductive Finding where
  | unsupportedDirective (directive : Text)
  | includeNotFound (path : Path)
  | includeTooDeep (path : Path) (limit : Nat)
  | undefinedMacro (name : Text)
  | macroExpanded (name : Text) (replacement : List Text)
  deriving DecidableEq, Repr

namespace Finding

def severity : Finding → Severity
  | .unsupportedDirective _ | .includeNotFound _ | .includeTooDeep .. => .warn
  | .undefinedMacro _ => .info
  | .macroExpanded .. => .debug

def message : Finding → Text
  | .unsupportedDirective directive => "unsupported preprocess directive: ".toList ++ directive
  | .includeNotFound path => "include file ".toList ++ path ++ " not found; skipping".toList
  | .includeTooDeep path limit =>
      "include of ".toList ++ path ++ " exceeds maximum depth ".toList ++ Text.decimal limit ++
        "; skipping".toList
  | .undefinedMacro name => "unset identifier ".toList ++ name ++ " was never defined".toList
  | .macroExpanded name replacement =>
      "replacing ".toList ++ name ++ " with ".toList ++ Text.join [' '] replacement

end Finding

structure Diagnostic where
  finding : Finding
  /-- The file that was being read, if the source has a name. -/
  source : Option Path
  /-- The line that was being read, counted from one. -/
  line : Nat
  deriving DecidableEq, Repr

namespace Diagnostic

def severity (d : Diagnostic) : Severity :=
  d.finding.severity

def message (d : Diagnostic) : Text :=
  match d.source with
  | some path => path ++ ":".toList ++ Text.decimal d.line ++ ": ".toList ++ d.finding.message
  | none => "line ".toList ++ Text.decimal d.line ++ ": ".toList ++ d.finding.message

end Diagnostic

end FreeForm
