import FreeForm.Files
import FreeForm.MacroTable

namespace FreeForm

/-!
# Configuration

Where included files are looked up, how deep they may nest, and the macros defined before the first
line is read. A predefinition may be written as a name, or as a name and a body with an equals sign
between them. Names are ASCII identifiers.
-/

structure Configuration where
  includeRoot : Path
  maxIncludeDepth : Nat
  /-- Names and bodies, in the order of their definition. -/
  definitions : List (Text × Text)
  deriving DecidableEq, Repr

inductive ConfigurationError where
  /-- A predefinition that cannot be read. -/
  | definition (e : LexError)
  | invalidMacroName (name : Text)
  deriving DecidableEq, Repr

def ConfigurationError.message : ConfigurationError → Text
  | .definition e => e.message
  | .invalidMacroName name => "macro name must be an identifier: ".toList ++ name.quoted

namespace Configuration

def standard : Configuration := ⟨['.'], 16, []⟩

instance : Inhabited Configuration := ⟨standard⟩

/-- Reads a predefinition. A name alone has an empty body. -/
def parseDefinition (t : Text) : Except LexError (Text × Text) :=
  let name := Text.trim (t.takeWhile (· != '='))
  let body := Text.trim ((t.dropWhile (· != '=')).drop 1)
  if name = [] then .error (.invalidDefinition t) else .ok (name, body)

/-- Whether a text is an ASCII letter or an underscore, followed by letters, digits and
underscores. -/
def isIdentifier : Text → Bool
  | [] => false
  | c :: rest => (c.isAlpha || c == '_') && rest.all fun d => d.isAlphanum || d == '_'

/-- What a configuration is made from. -/
structure Options where
  includeRoot : Option Path
  maxIncludeDepth : Option Nat
  /-- Names and bodies. -/
  definitions : List (Text × Text)
  /-- Predefinitions still to be read. -/
  unread : List Text

/-- The configuration of some options. All predefinitions are read before a name is looked at. -/
def ofOptions (o : Options) : Except ConfigurationError Configuration :=
  match o.unread.mapM parseDefinition with
  | .error e => .error (.definition e)
  | .ok read =>
      let definitions := o.definitions ++ read
      match definitions.find? (!isIdentifier ·.1) with
      | some (name, _) => .error (.invalidMacroName name)
      | none =>
          .ok ⟨o.includeRoot.getD standard.includeRoot,
            o.maxIncludeDepth.getD standard.maxIncludeDepth, definitions⟩

def defineAll (macros : MacroTable) : List (Text × Text) → Except LexError MacroTable
  | [] => .ok macros
  | (name, body) :: definitions =>
      match macros.define name body with
      | .ok macros => defineAll macros definitions
      | .error e => .error e

/-- The table of the predefined macros. -/
def macroTable (c : Configuration) : Except LexError MacroTable :=
  defineAll .empty c.definitions

end Configuration

end FreeForm
