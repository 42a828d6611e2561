import FreeForm.Fault
import FreeForm.Text.Quoted

namespace FreeForm

/-!
# Errors of lexing

The causes that end a scan or the assembly of statements. Whoever finds a line-local fault may not
know the line; `atLine` attaches it later. Whatever can be skipped is a diagnostic instead.
-/

/-- What is missing in a directive. -/
inductive DirectiveFault where
  | missingName
  | badIncludePath
  deriving DecidableEq, Repr

def DirectiveFault.message : DirectiveFault → Text
  | .missingName => "missing macro name".toList
  | .badIncludePath => "bad include path".toList

inductive LexError where
  /-- A character that starts no lexeme; the column counts characters from one. -/
  | unexpectedCharacter (character : Char) (line column : Nat)
  /-- A known directive without its argument. -/
  | malformedDirective (directive : Text) (line : Nat) (fault : DirectiveFault)
  /-- A predefinition without a name. -/
  | invalidDefinition (definition : Text)
  /-- An included file that exists and cannot be read. -/
  | includeUnreadable (path : Path) (fault : Fault)
  /-- A line that cannot be read. -/
  | unreadable (fault : Fault)
  deriving DecidableEq, Repr

namespace LexError

/-- Attaches a line number to a line-local error. -/
def atLine (line : Nat) : LexError → LexError
  | .unexpectedCharacter character _ column => .unexpectedCharacter character line column
  | .malformedDirective directive _ fault => .malformedDirective directive line fault
  | e => e

/-- Whether the text itself could not be scanned. -/
def isScanError : LexError → Bool
  | .unexpectedCharacter .. => true
  | _ => false

def message : LexError → Text
  | .unexpectedCharacter character line column =>
      "unexpected character ".toList ++ Text.quotedChar character ++ " at line ".toList ++
        Text.decimal line ++ ", column ".toList ++ Text.decimal column
  | .malformedDirective directive line fault =>
      "malformed directive at line ".toList ++ Text.decimal line ++ ": ".toList ++ fault.message ++
        ": ".toList ++ directive
  | .invalidDefinition definition => "invalid macro definition: ".toList ++ definition
  | .includeUnreadable path fault =>
      "failed to read include file ".toList ++ path ++ ": ".toList ++ fault.message
  | .unreadable fault => "I/O error: ".toList ++ fault.message

/-- The texts of an error and of its causes, outermost first. -/
def chain : LexError → List Text
  | .includeUnreadable path fault => (LexError.includeUnreadable path fault).message :: fault.chain
  | .unreadable fault => (LexError.unreadable fault).message :: fault.chain
  | e => [e.message]

@[simp] theorem atLine_atLine (m n : Nat) (e : LexError) : (e.atLine m).atLine n = e.atLine n := by
  cases e <;> rfl

@[simp] theorem isScanError_atLine (n : Nat) (e : LexError) :
    (e.atLine n).isScanError = e.isScanError := by
  cases e <;> rfl

end LexError

end FreeForm
