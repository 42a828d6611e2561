import FreeForm.MacroTable
import FreeForm.Proofs.Reader.DirectiveForms
import FreeForm.Proofs.Scan.DirectiveLine

namespace FreeForm

/-!
# Where a scan stops

A line that does not scan is reported with the character in front of which scanning stopped and the
column of it. The body of a definition is scanned as a line of its own, so its columns count from
the start of the body, wherever on the line the body stands.
-/

/-- An error names the character at a column of a text, and no line. -/
def LexError.PointsInto (e : LexError) (t : Text) : Prop :=
  ∃ c k, e = .unexpectedCharacter c 0 (k + 1) ∧ t[k]? = some c

theorem LexError.PointsInto.of_isPrefix {e : LexError} {t u : Text} (h : e.PointsInto t)
    (htu : t <+: u) : e.PointsInto u := by
  obtain ⟨c, k, rfl, hk⟩ := h
  obtain ⟨v, rfl⟩ := htu
  obtain ⟨hlt, _⟩ := List.getElem?_eq_some_iff.mp hk
  exact ⟨c, k, rfl, (List.getElem?_append_left hlt).trans hk⟩

theorem pointsInto_of_scanLine {carried : Option Char} {line : Text} {e : LexError}
    (h : scanLine carried line = .error e) : e.PointsInto (Line.body line) := by
  have happ := Line.scan_append carried (Line.body line)
  unfold scanLine scanLineWith ScannedLine.ofScan at h
  generalize Line.scan (fun _ => none) carried (Line.body line) = scan at h happ
  obtain ⟨lexemes, opened, rest⟩ := scan
  cases rest with
  | nil => cases h
  | cons c rest =>
      cases h
      dsimp only at happ
      refine ⟨c, (Lexeme.concat lexemes).length, ?_, ?_⟩
      · have hlength := congrArg List.length happ
        rw [List.length_append, List.length_cons] at hlength
        congr 1
        omega
      · rw [← happ]
        simp

namespace Line

theorem prefix_body (line : Text) : body line <+: line :=
  ⟨terminator line, body_append_terminator line⟩

/-- A line feed that is put behind a text is none of the content. -/
theorem prefix_body_feed (t : Text) : body (t ++ ['\n']) <+: t := by
  rw [body_append_feed]
  split
  · exact List.dropLast_prefix t
  · exact List.prefix_refl t

end Line

/-- What does not scan with a line feed behind it is at fault itself. -/
theorem pointsInto_of_scanLine_feed {t : Text} {e : LexError}
    (h : scanLine none (t ++ ['\n']) = .error e) : e.PointsInto t :=
  (pointsInto_of_scanLine h).of_isPrefix (Line.prefix_body_feed t)

theorem MacroTable.pointsInto_of_define {t : MacroTable} {name body : Text} {e : LexError}
    (h : t.define name body = .error e) : e.PointsInto body := by
  unfold define scanBody at h
  cases hscan : scanLine none (body ++ ['\n']) with
  | error f =>
      rw [hscan] at h
      cases h
      exact pointsInto_of_scanLine_feed hscan
  | ok scanned =>
      rw [hscan] at h
      cases h

namespace Text

theorem prefix_dropEndWhile (p : Char → Bool) (t : Text) : dropEndWhile p t <+: t := by
  have hsuffix := List.dropWhile_suffix p (l := t.reverse)
  rw [← List.reverse_prefix] at hsuffix
  rw [List.reverse_reverse] at hsuffix
  exact hsuffix

theorem infix_trim (t : Text) : trim t <:+: t :=
  (prefix_dropEndWhile _ _).isInfix.trans (List.dropWhile_suffix _).isInfix

end Text

namespace Directive

theorem infix_body (t : Text) : body t <:+: t := by
  cases t with
  | nil => exact List.infix_refl _
  | cons c rest =>
      rw [body]
      split
      · exact (Text.infix_trim rest).trans (List.suffix_cons c rest).isInfix
      · exact Text.infix_trim (c :: rest)

/-- The body of a definition is a stretch of the line. -/
theorem infix_of_parse {text name value : Text} (h : parse text = .ok (.define name value)) :
    value <:+: text :=
  (writtenAs_of_parse h).1.suffix_value.isInfix.trans <|
    (infix_body _).trans (Text.prefix_dropEndWhile _ _).isInfix

end Directive

end FreeForm
