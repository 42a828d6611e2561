import FreeForm.Command

namespace FreeForm

/-!
# Arguments

The arguments are read from left to right: one file, and options in any place until two dashes end
them. The value of an option follows it as an argument of its own, which must not look like an option,
or is attached. Asking for the version or for help ends the reading at once, so what stands behind is
not looked at.
-/

namespace Command

structure Arguments where
  file : Path
  mode : Mode
  includeRoot : Option Path
  maxIncludeDepth : Option Nat
  definitions : List Text
  check : Bool
  deriving DecidableEq, Repr

inductive Request where
  | version
  | help
  | lex (a : Arguments)
  deriving DecidableEq, Repr

/-- The options that take a value. -/
inductive Setting where
  | mode
  | includeRoot
  | define
  | maxIncludeDepth
  deriving DecidableEq, Repr

/-- The options that take none. -/
inductive Switch where
  | check
  | version
  | help
  deriving DecidableEq, Repr

inductive UsageError where
  | unexpected (argument : Text)
  | missingValue (setting : Setting)
  | badValue (setting : Setting) (value : Text)
  | repeated (argument : Text)
  | unwantedValue (switch : Switch)
  | emptyFile
  | missingFile
  deriving DecidableEq, Repr

namespace Setting

def label : Setting → String
  | .mode => "mode"
  | .includeRoot => "include-root"
  | .define => "define"
  | .maxIncludeDepth => "max-include-depth"

def letter? : Setting → Option Char
  | .mode => some 'm'
  | .includeRoot => some 'I'
  | .define => some 'D'
  | .maxIncludeDepth => none

def all : List Setting :=
  [.mode, .includeRoot, .define, .maxIncludeDepth]

def ofLabel? (label : Text) : Option Setting :=
  all.find? (·.label.toList == label)

def ofLetter? (letter : Char) : Option Setting :=
  all.find? (·.letter? == some letter)

end Setting

namespace Switch

def label : Switch → String
  | .check => "check"
  | .version => "version"
  | .help => "help"

def letter? : Switch → Option Char
  | .check => none
  | .version => some 'V'
  | .help => some 'h'

def all : List Switch :=
  [.check, .version, .help]

def ofLabel? (label : Text) : Option Switch :=
  all.find? (·.label.toList == label)

def ofLetter? (letter : Char) : Option Switch :=
  all.find? (·.letter? == some letter)

end Switch

namespace UsageError

def message : UsageError → Text
  | .unexpected argument => "unexpected argument '".toList ++ argument ++ ['\'']
  | .missingValue setting => "a value is required for '--".toList ++ setting.label.toList ++ ['\'']
  | .badValue setting value =>
      "invalid value '".toList ++ value ++ "' for '--".toList ++ setting.label.toList ++ ['\'']
  | .repeated argument => "the argument '".toList ++ argument ++ "' cannot be repeated".toList
  | .unwantedValue switch => "no value is allowed for '--".toList ++ switch.label.toList ++ ['\'']
  | .emptyFile => "the file needs a name".toList
  | .missingFile => "a file is required".toList

end UsageError

/-- What the arguments read so far have given. -/
structure Given where
  file : Option Path
  mode : Option Mode
  includeRoot : Option Path
  maxIncludeDepth : Option Nat
  definitions : List Text
  check : Bool

namespace Given

def nothing : Given := ⟨none, none, none, none, [], false⟩

/-- The largest depth that can be asked for, and one. -/
def depthBound : Nat := 18446744073709551616

/-- An unsigned number, with a plus sign or without. -/
def count? (t : Text) : Option Nat :=
  let digits := if t.head? = some '+' then t.drop 1 else t
  if digits ≠ [] ∧ digits.all Char.isDigit then
    let n := digits.foldl (fun n c => 10 * n + (c.toNat - '0'.toNat)) 0
    if n < depthBound then some n else none
  else none

/-- Fills a field that nothing has filled yet. -/
def once {α : Type} (setting : Setting) (old new : Option α) (value : Text) :
    Except UsageError (Option α) :=
  match new, old with
  | none, _ => .error (.badValue setting value)
  | some _, some _ => .error (.repeated setting.label.toList)
  | some a, none => .ok (some a)

/-- Takes the value of an option. Only definitions add up. -/
def set (g : Given) (value : Text) : Setting → Except UsageError Given
  | .mode => do
      let mode ← once .mode g.mode (Mode.ofLabel? (String.ofList value)) value
      return { g with mode := mode }
  | .includeRoot => do
      let root ← once .includeRoot g.includeRoot (if value = [] then none else some value) value
      return { g with includeRoot := root }
  | .maxIncludeDepth => do
      let depth ← once .maxIncludeDepth g.maxIncludeDepth (count? value) value
      return { g with maxIncludeDepth := depth }
  | .define => .ok { g with definitions := g.definitions ++ [value] }

def setFile (g : Given) (file : Path) : Except UsageError Given :=
  if g.file.isSome then .error (.unexpected file)
  else if file = [] then .error .emptyFile
  else .ok { g with file := some file }

/-- Takes arguments that can only be files. -/
def setFiles (g : Given) : List Text → Except UsageError Given
  | [] => .ok g
  | file :: files => do
      let g ← g.setFile file
      setFiles g files

end Given

/-- The shapes of an argument. -/
inductive Shape where
  | endOfOptions
  | long (name : Text) (value : Option Text)
  | short (letter : Char) (rest : Text)
  | plain

/-- A lone dash is no option. -/
def shape : Text → Shape
  | ['-', '-'] => .endOfOptions
  | '-' :: '-' :: rest =>
      .long (rest.takeWhile (· != '='))
        (if '=' ∈ rest then some ((rest.dropWhile (· != '=')).drop 1) else none)
  | '-' :: letter :: rest => .short letter rest
  | _ => .plain

/-- The value attached to the letter of an option. -/
def attached : Text → Option Text
  | [] => none
  | c :: rest => if c = '=' then some rest else some (c :: rest)

inductive Item where
  | endOfOptions
  | file
  | setting (s : Setting) (value : Option Text)
  | check
  | answer (r : Request)

def Item.ofSwitch : Switch → Item
  | .check => .check
  | .version => .answer .version
  | .help => .answer .help

/-- Reads one argument by itself. No switch with a letter can be followed by more letters, for each
of them ends the reading. -/
def item (argument : Text) : Except UsageError Item :=
  match shape argument with
  | .endOfOptions => .ok .endOfOptions
  | .plain => .ok .file
  | .long name value =>
      match Setting.ofLabel? name, Switch.ofLabel? name with
      | some s, _ => .ok (.setting s value)
      | none, some s => if value.isSome then .error (.unwantedValue s) else .ok (.ofSwitch s)
      | none, none => .error (.unexpected argument)
  | .short letter rest =>
      match Setting.ofLetter? letter, Switch.ofLetter? letter with
      | some s, _ => .ok (.setting s (attached rest))
      | none, some s => .ok (.ofSwitch s)
      | none, none => .error (.unexpected argument)

/-- The arguments read, or a request that ends the reading. -/
inductive Read where
  | given (g : Given)
  | answer (r : Request)

/-- Reads arguments, given the option that still waits for its value. -/
def readArguments : Option Setting → Given → List Text → Except UsageError Read
  | some s, _, [] => .error (.missingValue s)
  | none, g, [] => .ok (.given g)
  | some s, g, argument :: rest =>
      match shape argument with
      | .plain => do
          let g ← g.set argument s
          readArguments none g rest
      | _ => .error (.missingValue s)
  | none, g, argument :: rest => do
      match ← item argument with
      | .endOfOptions =>
          let g ← g.setFiles rest
          return .given g
      | .file =>
          let g ← g.setFile argument
          readArguments none g rest
      | .setting s none => readArguments (some s) g rest
      | .setting s (some value) =>
          let g ← g.set value s
          readArguments none g rest
      | .check =>
          if g.check then throw (.repeated argument)
          readArguments none { g with check := true } rest
      | .answer r => return .answer r

/-- Makes a request of what was given. The environment's include root counts where the arguments name
none. -/
def Given.request (g : Given) (environmentRoot : Option Text) : Except UsageError Request :=
  let root : Except UsageError (Option Path) :=
    match g.includeRoot, environmentRoot with
    | some root, _ => .ok (some root)
    | none, none => .ok none
    | none, some root => if root = [] then .error (.badValue .includeRoot root) else .ok (some root)
  match root, g.file with
  | .error e, _ => .error e
  | .ok _, none => .error .missingFile
  | .ok root, some file =>
      .ok (.lex ⟨file, g.mode.getD .roundtrip, root, g.maxIncludeDepth, g.definitions, g.check⟩)

/-- What some arguments ask for. -/
def request (environmentRoot : Option Text) (arguments : List Text) : Except UsageError Request :=
  match readArguments none .nothing arguments with
  | .error e => .error e
  | .ok (.answer r) => .ok r
  | .ok (.given g) => g.request environmentRoot

structure Exit where
  code : Nat
  stdout : Text
  stderr : Text

def versionLine : Text :=
  "f90lex 0.1.0\n".toList

def helpText : Text :=
  ("Lossless lexer and preprocessor for free-form Fortran\n\n" ++
    "Usage: f90lex [OPTIONS] <FILE>\n\n" ++
    "Options:\n" ++
    "  -m, --mode <MODE>            roundtrip, statements, tokens, lexemes, expanded or json\n" ++
    "  -I, --include-root <DIR>     directory #include paths are resolved against\n" ++
    "  -D, --define <NAME[=BODY]>   predefine a macro\n" ++
    "      --max-include-depth <N>  deepest allowed #include nesting\n" ++
    "      --check                  fail if the roundtrip output differs from the input\n" ++
    "  -h, --help                   print this help\n" ++
    "  -V, --version                print the version\n").toList

def Arguments.configuration (a : Arguments) : Except ConfigurationError Configuration :=
  Configuration.ofOptions ⟨a.includeRoot, a.maxIncludeDepth, [], a.definitions⟩

def Arguments.perform (files : Files) (a : Arguments) : Output :=
  match a.configuration with
  | .error e => .failed (.configuration e)
  | .ok c => Command.perform files c a.file a.mode a.check

/-- How a command with some output ends. -/
def Output.exit (o : Output) : Exit :=
  match o.failure with
  | none => ⟨0, o.text, []⟩
  | some f => ⟨1, o.text, "Error: ".toList ++ f.message ++ ['\n']⟩

def Request.exit (files : Files) : Request → Exit
  | .version => ⟨0, versionLine, []⟩
  | .help => ⟨0, helpText, []⟩
  | .lex a => (a.perform files).exit

def run (files : Files) (environmentRoot : Option Text) (arguments : List Text) : Exit :=
  match request environmentRoot arguments with
  | .error e => ⟨2, [], "error: ".toList ++ e.message ++ ['\n']⟩
  | .ok r => r.exit files

end Command

end FreeForm
