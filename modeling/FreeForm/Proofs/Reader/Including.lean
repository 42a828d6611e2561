import FreeForm.Proofs.Reader.DirectiveForms
import FreeForm.Proofs.Reader.IncludeLine
import FreeForm.Proofs.Reader.KeywordLine

namespace FreeForm

/-!
# Reading the line that includes a file

A line includes the file that it names between quotes. Where the file lexes, all that the line leaves
behind are the document and the macros of the file.
-/

namespace Directive

theorem includePath?_quoted {name : Path} (hne : name ≠ []) (hquote : '"' ∉ name) :
    includePath? ('"' :: name ++ ['"']) = some (name, false) :=
  includePath?_eq_some_iff.mpr ⟨'"', '"', [], .quotes, hne, hquote, rfl⟩

end Directive

namespace Line

/-- The line that includes the file with a name. -/
def including (name : Path) : Text :=
  Lexeme.directiveMark :: (Directive.includeWord ++ ' ' :: ('"' :: name ++ ['"'])) ++ ['\n']

example : including "a.h".toList = "#include \"a.h\"\n".toList := by decide

theorem directiveBody_including (name : Path) :
    Directive.body (Directive.line (directiveText (including name))) =
      Directive.includeWord ++ ' ' :: ('"' :: name ++ ['"']) := by
  rw [including, body_directiveText]
  exact Text.trim_of_ends (c := 'i') (d := '"') (by decide) (by decide)
    (['n', 'c', 'l', 'u', 'd', 'e', ' ', '"'] ++ name)

section Name

variable {name : Path} (hne : name ≠ []) (hquote : '"' ∉ name)
include hne hquote

theorem parse_including :
    Directive.parse (directiveText (including name)) = .ok (.includeFile name false) := by
  have hpath : Directive.includePath? (Text.trimStart (' ' :: ('"' :: name ++ ['"']))) =
      some (name, false) := Directive.includePath?_quoted hne hquote
  unfold Directive.parse
  rw [directiveBody_including]
  exact Directive.ofBody_include _ hpath

/-- The name on the line that includes it. -/
theorem includedName?_including : includedName? (including name) = some name := by
  have hdirective : isDirective (including name) = true := rfl
  have hparse := parse_including hne hquote
  unfold directiveText at hparse
  rw [includedName?, if_pos hdirective, hparse]

end Name

end Line

namespace Reader

/-- A line that includes a file which lexes leaves the document and the macros behind. -/
theorem exists_read_including {env : Environment} {r : Reader} {line : Text} {name : Path}
    (hname : Line.includedName? line = some name) (hactive : r.isSuppressed = false)
    {bytes : List UInt8} (hfile : env.files (Path.join env.root name) = .file bytes)
    {lex : Path → Source → MacroTable → Run} (hnested : env.nested = some lex) {d : Document}
    (hrun : (lex (Path.join env.root name) (.ofBytes bytes) r.macros).result = .ok d) :
    ∃ lead, (r.read env (.ok line)).result = .ok ⟨lead, []⟩ ∧
      (r.read env (.ok line)).reader =
        { r.withMacros (lex (Path.join env.root name) (.ofBytes bytes) r.macros).macros with
          lineNumber := r.lineNumber + 1
          inclusions := r.inclusions ++ [(Path.join env.root name, d)] } := by
  have hinclusion : r.inclusion? (.ok line) = some name := by
    rw [inclusion?, hactive]
    exact hname
  obtain ⟨lead, event, hread⟩ := read_of_inclusion? hinclusion
  rw [hread]
  unfold includeFile
  dsimp only
  rw [hfile, hnested]
  unfold macros at hrun ⊢
  dsimp only
  rw [hrun]
  exact ⟨lead, rfl, rfl⟩

end Reader

end FreeForm
