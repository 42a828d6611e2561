import FreeForm.Command.Arguments
import FreeForm.Inclusions

namespace FreeForm.Main

/-!
# The program

The file on the command line and the files that it may include are read beforehand; all else is done
by the command.
-/

/-- What a path leads to when the system reports a fault by number and text. Some calls report the
number negated. -/
def entryOfFault (code : UInt32) (details : String) : Entry :=
  let number := min code (0 - code)
  if number = 20 then .absent .notADirectory
  else if number = 21 then .directory
  else if number = 36 then .absent .nameTooLong
  else
    .unreadable (.other (details.capitalize.toList ++ " (os error ".toList ++
      Text.decimal number.toNat ++ [')']))

/-- What a path leads to when it cannot be read. -/
def entryOfError (e : IO.Error) : Entry :=
  match e with
  | .noFileOrDirectory .. => .absent .notFound
  | .inappropriateType _ code details | .invalidArgument _ code details
  | .permissionDenied _ code details => entryOfFault code details
  | e => .unreadable (.other e.toString.toList)

def lookUp (path : Path) : IO Entry := do
  if '\x00' ∈ path then return .absent .nulInName
  try
    let bytes ← IO.FS.readBinFile (String.ofList path)
    return .file bytes.toList
  catch e => return entryOfError e

/-- Looks up paths and whatever the files found may include. -/
partial def load (root : Path) (known : List (Path × Entry)) :
    List Path → IO (List (Path × Entry))
  | [] => return known
  | path :: paths => do
      if (known.lookup path).isSome then load root known paths
      else
        let entry ← lookUp path
        load root ((path, entry) :: known) (entry.includedPaths root ++ paths)

def filesOf : Command.Request → IO Files
  | .lex a => do
      let root := a.includeRoot.getD Configuration.standard.includeRoot
      return .ofEntries (← load root [] [a.file])
  | _ => return .none

end FreeForm.Main

open FreeForm in
def main (args : List String) : IO UInt32 := do
  let environmentRoot ← IO.getEnv "F90LEX_INCLUDE_ROOT"
  let arguments := args.map String.toList
  let root := environmentRoot.map String.toList
  let files ←
    match Command.request root arguments with
    | .ok r => Main.filesOf r
    | .error _ => pure Files.none
  let exit := Command.run files root arguments
  IO.print (String.ofList exit.stdout)
  IO.eprint (String.ofList exit.stderr)
  return exit.code.toUInt32
