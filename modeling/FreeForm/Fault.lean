import FreeForm.Text

namespace FreeForm

/-!
# Faults of files

What may go wrong when a file is opened or read. A fault may name the file and the attempt that
failed; its cause is then a fault of its own.
-/

/-- A path as it is written, its components separated by slashes. -/
abbrev Path := Text

inductive Fault where
  | invalidUtf8
  | notFound
  | notADirectory
  | isADirectory
  | nameTooLong
  | nulInName
  | opening (path : Path) (cause : Fault)
  | reading (path : Path) (cause : Fault)
  | other (message : Text)
  deriving DecidableEq, Repr

namespace Fault

/-- The text of a fault, without its cause. -/
def message : Fault → Text
  | .invalidUtf8 => "stream did not contain valid UTF-8".toList
  | .notFound => "No such file or directory (os error 2)".toList
  | .notADirectory => "Not a directory (os error 20)".toList
  | .isADirectory => "Is a directory (os error 21)".toList
  | .nameTooLong => "File name too long (os error 36)".toList
  | .nulInName => "file name contained an unexpected NUL byte".toList
  | .opening path _ => "failed to open file `".toList ++ path ++ ['\x60']
  | .reading path _ => "failed to read from file `".toList ++ path ++ ['\x60']
  | .other message => message

/-- The texts of a fault and of its causes, outermost first. -/
def chain : Fault → List Text
  | .opening path cause => (Fault.opening path cause).message :: cause.chain
  | .reading path cause => (Fault.reading path cause).message :: cause.chain
  | fault => [fault.message]

end Fault

end FreeForm
