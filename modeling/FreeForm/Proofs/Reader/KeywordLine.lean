import FreeForm.Proofs.Scan.DirectiveLine
import FreeForm.Proofs.Text.Words

namespace FreeForm

/-!
# Lines with a keyword

The line end behind a directive is dropped twice, where the line is cut and where the directive is
read, and then the directive is trimmed. All that is dropped is white space, so that whatever stands
behind the keyword reaches the directive as if it were trimmed once.
-/

namespace Line

/-- The line of a directive with something behind its keyword. -/
def keyword (k : Directive.Keyword) (rest : Text) : Text :=
  Lexeme.directiveMark :: (k.text ++ ' ' :: rest) ++ ['\n']

/-- What stands on a directive line, but for a carriage return in front of the line feed. -/
theorem exists_body_feed (t : Text) :
    ∃ w, (∀ c ∈ w, Unicode.isWhiteSpace c = true) ∧ t = body (t ++ ['\n']) ++ w := by
  rw [body_append_feed]
  split
  · rename_i hlast
    obtain ⟨front, rfl⟩ := List.getLast?_eq_some_iff.mp hlast
    rw [List.dropLast_concat]
    exact ⟨['\r'], List.forall_mem_singleton.mpr (by decide), rfl⟩
  · exact ⟨[], List.forall_mem_nil _, (List.append_nil t).symm⟩

/-- What stands behind the mark of a directive line, trimmed. -/
theorem body_directiveText (t : Text) :
    Directive.body (Directive.line (directiveText (Lexeme.directiveMark :: t ++ ['\n']))) =
      Text.trim t := by
  obtain ⟨w, hw, hbody⟩ := exists_body_feed t
  have hmark : directiveText (Lexeme.directiveMark :: t ++ ['\n']) =
      Lexeme.directiveMark :: body (t ++ ['\n']) :=
    body_cons_of_ne (by decide) (by decide) _
  have hkept : Directive.line (Lexeme.directiveMark :: body (t ++ ['\n'])) =
      Lexeme.directiveMark ::
        Text.dropEndWhile (fun c => c == '\r' || c == '\n') (body (t ++ ['\n'])) :=
    Text.dropEndWhile_cons_of_neg rfl _
  obtain ⟨v, hv, hfront⟩ :=
    Text.exists_dropEndWhile (fun c => c == '\r' || c == '\n') (body (t ++ ['\n']))
  have hspace : ∀ c ∈ v, Unicode.isWhiteSpace c = true := by
    intro c hc
    rcases Bool.or_eq_true_iff.mp (hv c hc) with hc | hc <;> rw [beq_iff_eq.mp hc] <;> decide
  calc
    _ = Text.trim (Text.dropEndWhile (fun c => c == '\r' || c == '\n') (body (t ++ ['\n']))) := by
      rw [hmark, hkept]
      rfl
    _ = Text.trim (body (t ++ ['\n'])) := by rw [← Text.trim_append_space hspace, ← hfront]
    _ = Text.trim t := by rw [← Text.trim_append_space hw, ← hbody]

/-- A directive is read off its keyword and off what stands behind. -/
theorem parse_keyword (k : Directive.Keyword) (rest : Text) :
    Directive.parse (directiveText (keyword k rest)) =
      Directive.ofKeyword (Directive.line (directiveText (keyword k rest))) (Text.trim rest) k := by
  have hall : k.text.all (!Unicode.isWhiteSpace ·) = true := by cases k <;> decide
  have hword : ∀ c ∈ k.text, Unicode.isWhiteSpace c = false :=
    fun c hc => by simpa using List.all_eq_true.mp hall c hc
  have hne : k.text ≠ [] := by cases k <;> exact List.cons_ne_nil _ _
  have hblank : ∀ c ∈ (' ' :: rest).head?, Unicode.isWhiteSpace c = true := by
    intro c hc
    obtain rfl : ' ' = c := Option.some.inj hc
    decide
  have hbody : Directive.body (Directive.line (directiveText (keyword k rest))) =
      Text.trim (k.text ++ ' ' :: rest) := body_directiveText _
  unfold Directive.parse Directive.ofBody
  rw [hbody, Text.firstWord, Text.splitWord_trim_append hne hword hblank,
    Directive.Keyword.ofText?_text, Text.trim_blank_cons]

end Line

end FreeForm
