import FreeForm.Files

namespace FreeForm

/-!
# File trees

A file system held as a value: files in directories below one working directory. A path is walked
component by component, and every component but the last has to be a directory. Nothing is known of
the directories above the working directory but that they exist.
-/

/-- The names on the way from the working directory. -/
abbrev Place := List Text

namespace Path

/-- The components of a path, between its slashes. -/
def components : Path → List Text
  | [] => [[]]
  | c :: rest =>
      if c = slash then [] :: components rest
      else
        match components rest with
        | [] => [[c]]
        | name :: names => (c :: name) :: names

/-- The longest name of a file, in bytes. -/
def maxNameSize : Nat := 255

/-- The longest path, in bytes. -/
def maxSize : Nat := 4095

end Path

structure FileTree where
  directories : List Place
  /-- The files with their places, the latest first. -/
  files : List (Place × List UInt8)

namespace FileTree

def empty : FileTree := ⟨[[]], []⟩

/-- Writes a file, given the place reached so far and the components of its path; the directories on
the way are made. -/
def write (tree : FileTree) (bytes : List UInt8) : Place → List Text → FileTree
  | _, [] => tree
  | place, [name] => { tree with files := (place ++ [name], bytes) :: tree.files }
  | place, name :: names =>
      if name = [] ∨ name = ['.'] then write tree bytes place names
      else if name = ['.', '.'] then write tree bytes place.dropLast names
      else
        write { tree with directories := (place ++ [name]) :: tree.directories } bytes
          (place ++ [name]) names

/-- A tree of files with their paths. -/
def ofFiles (files : List (Path × List UInt8)) : FileTree :=
  files.foldl (fun tree (path, bytes) => tree.write bytes [] path.components) empty

/-- Where a walk stands: below the working directory, or somewhere above it. -/
inductive Position where
  | inside (place : Place)
  | above

/-- Walks the components of a path. -/
def walk (tree : FileTree) : Position → List Text → Entry
  | _, [] => .directory
  | position, name :: names =>
      if name = [] ∨ name = ['.'] then tree.walk position names
      else
        match position with
        | .above =>
            if name = ['.', '.'] then tree.walk .above names else .absent .notFound
        | .inside place =>
            if name = ['.', '.'] then
              tree.walk (if place = [] then .above else .inside place.dropLast) names
            else if (Text.toUtf8 name).length > Path.maxNameSize then .absent .nameTooLong
            else if place ++ [name] ∈ tree.directories then
              tree.walk (.inside (place ++ [name])) names
            else
              match tree.files.lookup (place ++ [name]) with
              | none => .absent .notFound
              | some bytes => if names = [] then .file bytes else .absent .notADirectory

/-- What a path leads to in the tree. Absolute paths start above the working directory. -/
def entry (tree : FileTree) (path : Path) : Entry :=
  if '\x00' ∈ path then .absent .nulInName
  else if path = [] then .absent .notFound
  else if (Text.toUtf8 path).length > Path.maxSize then .absent .nameTooLong
  else if path.head? = some Path.slash then tree.walk .above path.components
  else tree.walk (.inside []) path.components

end FileTree

end FreeForm
