import FreeForm.Source

namespace FreeForm

/-!
# Files

Lexing sees a file system as what it finds under each path. Included files are looked up below one
root; a path is joined to it as it stands and never tidied up.
-/

inductive Entry where
  | file (bytes : List UInt8)
  /-- A file that cannot be opened. -/
  | unreadable (fault : Fault)
  | directory
  | absent (fault : Fault)
  deriving DecidableEq, Repr

abbrev Files := Path → Entry

def Files.none : Files := fun _ => .absent .notFound

/-- A file system of which only some paths are known. -/
def Files.ofEntries (entries : List (Path × Entry)) : Files := fun path =>
  (entries.lookup path).getD (.absent .notFound)

namespace Path

def slash : Char := '/'

/-- A name below a directory. An absolute name stands for itself. -/
def join (root name : Path) : Path :=
  if name.head? = some slash then name
  else if root = [] then name
  else if root.getLast? = some slash then root ++ name
  else root ++ slash :: name

end Path

namespace Files

/-- The lines of the file that a path leads to. A directory opens, and its first line cannot be
read. -/
def open? (files : Files) (path : Path) : Except Fault Source :=
  match files path with
  | .file bytes => .ok (.ofBytes bytes)
  | .unreadable fault => .error fault
  | .directory => .ok [.error .isADirectory]
  | .absent fault => .error fault

/-- As `open?`, with faults that name the file and the attempt. -/
def openNamed (files : Files) (path : Path) : Except Fault Source :=
  match files path with
  | .file bytes => .ok (.ofBytes bytes)
  | .unreadable fault => .error (.opening path fault)
  | .directory => .ok [.error (.reading path .isADirectory)]
  | .absent fault => .error (.opening path fault)

end Files

end FreeForm
