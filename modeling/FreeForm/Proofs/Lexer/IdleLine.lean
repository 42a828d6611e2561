import FreeForm.Proofs.Lexer.Conditional
import FreeForm.Proofs.Reader.IdleLine

namespace FreeForm

/-!
# Idle lines do not show

An idle line may be put between any two lines of a source: inside a continued statement or string,
or where source is being skipped. The liminal text that it adds behind a continued token reaches
from a line end to a line end, so the token still touches the next line or still does not.
-/

variable {env : Environment}

theorem assemble_idleLine_alike {r r' : Reader} (hr : r.SameButLine r') {line : Text}
    (hend : line.getLast? = some '\n') (hidle : Line.isIdle line = true) {p p' : Phase}
    (hp : p.AtLineEnd) (hpp : p.Alike p') (rest : Source) :
    (assemble env (.ok line :: rest) r p).Alike Reader.SameButLine (assemble env rest r' p') := by
  have hpasses : Reader.Passes env [line] r (r.atLine (r.lineNumber + 1)) :=
    .line hend (Reader.readsLiminal_of_isIdle r hidle)
  obtain ⟨q, events, _, hqp, hassemble⟩ := hpasses.exists_phase hp
  have hbehind := assemble_alike (Reader.readsAlike_sameButLine env) rest
    (hr.atLine (r.lineNumber + 1)) (hqp.trans hpp)
  have hline := hassemble rest
  rw [List.map_singleton, List.singleton_append] at hline
  rw [hline]
  exact hbehind.prepend rfl events []

namespace Lexer

/-- A blank line or a comment line between any two lines of a source changes no statement, no error
but for its line, no inclusion and no macro. -/
theorem drain_idleLine (env : Environment) (macros : MacroTable) (source : Option Path)
    (p line q : Text) (hp : ∀ l ∈ p.lines, l.getLast? = some '\n') (hfeed : '\n' ∉ line)
    (hidle : Line.isIdle (line ++ ['\n']) = true) :
    ((start (.ofText (p ++ (line ++ ['\n']) ++ q)) macros source).drain env).Agrees
      ((start (.ofText (p ++ q)) macros source).drain env) := by
  rw [drain_start, drain_start]
  apply Assembly.Alike.agrees
  rw [List.append_assoc, Source.ofText_append hp, Source.ofText_append hp,
    Source.ofText_line_append hfeed]
  refine assemble_append_alike ?_ fun phase phase' hresult hphase => ?_
  · exact assemble_alike (Reader.readsAlike_sameButLine env) _ (.refl _) (.refl _)
  · have hborder : phase.AtLineEnd :=
      Phase.atLineEnd_assemble hp Phase.atLineEnd_start hresult
    exact assemble_idleLine_alike (.refl _) List.getLast?_concat hidle hborder hphase (.ofText q)

/-- A comment with a quote and a mark in it, between the halves of a string. -/
theorem drain_idleLine_in_string :
    ((start (.ofText ("#define N y\n x = 'a&\n".toList ++ ("\t! it's &".toList ++ ['\n']) ++
        "&b'; N\n".toList)) .empty none).drain ⟨.none, [], 0, none⟩).statements.map
          Statement.values = [["x".toList, "=".toList, "'ab'".toList], ["y".toList]] ∧
    ((start (.ofText ("#define N y\n x = 'a&\n".toList ++ ("\t! it's &".toList ++ ['\n']) ++
        "&b'; N\n".toList)) .empty none).drain ⟨.none, [], 0, none⟩).Agrees
      ((start (.ofText ("#define N y\n x = 'a&\n".toList ++ "&b'; N\n".toList)) .empty none).drain
        ⟨.none, [], 0, none⟩) :=
  ⟨by decide +kernel, drain_idleLine _ _ _ _ _ _ (by decide) (by decide) (by decide)⟩

end Lexer

end FreeForm
