import FreeForm.Directive
import FreeForm.Files
import FreeForm.Line

namespace FreeForm

/-!
# Included names

The names on the include lines of a source can be told without lexing it, for directives stand on
lines of their own and macros do not reach into them. A line that is skipped is counted too.
-/

def Line.includedName? (line : Text) : Option Path :=
  if isDirective line then
    match Directive.parse (body (line.dropWhile isBlank)) with
    | .ok (.includeFile name _) => some name
    | _ => none
  else none

/-- The names on all include lines of a source. -/
def Source.includedNames (source : Source) : List Path :=
  source.readable.filterMap Line.includedName?

/-- The paths that lexing what an entry holds may lead to. -/
def Entry.includedPaths (root : Path) : Entry → List Path
  | .file bytes => (Source.ofBytes bytes).includedNames.map (Path.join root)
  | _ => []

end FreeForm
