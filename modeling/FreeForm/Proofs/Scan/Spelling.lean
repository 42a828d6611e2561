import FreeForm.Proofs.Reader.Parts
import FreeForm.Proofs.Scan.Rows

namespace FreeForm

/-!
# The spelling of a line

The texts of the lexemes of a line are the line again, character by character: what stands in front
of the line end is made of lexemes that are not empty, and the line end holds what ends the line. A
text is then spelled by the lexemes of all its lines.
-/

namespace Line

/-- What ends a line: a carriage return with a line feed, a line feed, or nothing. -/
def ending (line : Text) : Text :=
  if ['\r', '\n'] <:+ line then ['\r', '\n']
  else if ['\n'] <:+ line then ['\n']
  else []

/-- A line of which more than its ending is left ends as it does without its first character. -/
theorem ending_cons {c : Char} {rest : Text} (hfeed : ¬(c = '\n' ∧ rest = []))
    (hreturn : ¬(c = '\r' ∧ rest = ['\n'])) : ending (c :: rest) = ending rest := by
  have hshort : ['\n'] <:+ c :: rest ↔ ['\n'] <:+ rest := by
    rw [List.suffix_cons_iff]
    refine or_iff_right fun h => hfeed ?_
    obtain ⟨hc, hrest⟩ := List.cons.inj h
    exact ⟨hc.symm, hrest.symm⟩
  have hlong : ['\r', '\n'] <:+ c :: rest ↔ ['\r', '\n'] <:+ rest := by
    rw [List.suffix_cons_iff]
    refine or_iff_right fun h => hreturn ?_
    obtain ⟨hc, hrest⟩ := List.cons.inj h
    exact ⟨hc.symm, hrest.symm⟩
  unfold ending
  simp only [hshort, hlong]

theorem terminator_eq_ending (line : Text) : terminator line = ending line := by
  unfold terminator
  fun_induction split line with
  | case1 => decide
  | case2 => decide
  | case3 => decide
  | case4 c rest hfeed hreturn ih =>
      rw [ih, ending_cons]
      · rintro ⟨rfl, rfl⟩
        exact hfeed rfl rfl
      · rintro ⟨rfl, rfl⟩
        exact hreturn rfl rfl

end Line

/-- The lexemes in front of the line end are told from it, and none of them is empty. -/
theorem exists_front_of_scanLine {carried : Option Char} {line : Text} {s : ScannedLine}
    (h : scanLine carried line = .ok s) :
    ∃ front, s.lexemes = front ++ [⟨.lineEnd, Line.ending line⟩] ∧
      ∀ l ∈ front, l.text ≠ [] ∧ l.kind ≠ .lineEnd := by
  obtain ⟨_, hlexemes⟩ := scanLine_eq_ok h
  rw [Line.terminator_eq_ending] at hlexemes
  refine ⟨_, hlexemes, fun l hl => ⟨Line.text_ne_nil_of_mem_scan hl, fun hkind => ?_⟩⟩
  have hshaped := Line.shaped_of_mem_scan hl
  simp [Line.Shaped, hkind] at hshaped

/-- Each row of lexemes spells its line, whatever string the line starts in. -/
theorem Scanner.concat_of_scanAll {lines : List Text} {s : Scanner} {rows : List (List Lexeme)}
    (h : s.scanAll lines = .ok rows) : rows.map Lexeme.concat = lines := by
  induction lines generalizing s rows with
  | nil =>
      cases h
      rfl
  | cons line lines ih =>
      rw [scanAll] at h
      cases hscan : s.scan line with
      | mk result s' =>
          rw [hscan] at h
          cases result with
          | error e => cases h
          | ok lexemes =>
              cases hrest : s'.scanAll lines with
              | error e => simp [hrest, Except.map] at h
              | ok others =>
                  simp only [hrest, Except.map, Except.ok.injEq] at h
                  rw [← h, List.map_cons, ih hrest, concat_of_scan hscan]

/-- Scanning loses no character: the lexemes of a line spell it, its line end alone may be empty and
holds what ends the line, and the lexemes of all lines of a text spell the text. -/
theorem scan_spells (carried : Option Char) (line t : Text) :
    (∀ s, scanLine carried line = .ok s →
      Lexeme.concat s.lexemes = line ∧
      ∃ front, s.lexemes = front ++ [⟨.lineEnd, Line.ending line⟩] ∧
        ∀ l ∈ front, l.text ≠ [] ∧ l.kind ≠ .lineEnd) ∧
    ∀ rows, scanText t = .ok rows → rows.flatMap Lexeme.concat = t := by
  refine ⟨fun s hs => ⟨concat_lexemes_scanLine hs, exists_front_of_scanLine hs⟩,
    fun rows hrows => ?_⟩
  calc rows.flatMap Lexeme.concat
      = (rows.map Lexeme.concat).flatten := List.flatMap_def
    _ = t.lines.flatten := by rw [Scanner.concat_of_scanAll hrows]
    _ = t := Text.lines_flatten t

/-- A line that starts in a string of which the delimiter is the continuation mark, and a text of
which the second line resumes a string that the third closes. -/
theorem scan_spells_resumed :
    (∃ s, scanLine (some '&') " &é&& 1.e3.eq.x ! &\r\n".toList = .ok s ∧ s.lexemes.length = 5 ∧
      Lexeme.concat s.lexemes = " &é&& 1.e3.eq.x ! &\r\n".toList) ∧
    ∃ rows, scanText "s = 'a''&\r\n &&\n&b' // 1.5\t".toList = .ok rows ∧ rows.length = 3 ∧
      rows.flatMap Lexeme.concat = "s = 'a''&\r\n &&\n&b' // 1.5\t".toList := by
  have hspells := scan_spells (some '&') " &é&& 1.e3.eq.x ! &\r\n".toList
    "s = 'a''&\r\n &&\n&b' // 1.5\t".toList
  obtain ⟨s, hs, hcount⟩ := exists_of_map_toOption (f := fun s => s.lexemes.length)
    (x := scanLine (some '&') " &é&& 1.e3.eq.x ! &\r\n".toList) (b := 5) (by decide +kernel)
  obtain ⟨rows, hrows, hrowCount⟩ := exists_of_map_toOption (f := List.length)
    (x := scanText "s = 'a''&\r\n &&\n&b' // 1.5\t".toList) (b := 3) (by decide +kernel)
  exact ⟨⟨s, hs, hcount, (hspells.1 s hs).1⟩, rows, hrows, hrowCount, hspells.2 rows hrows⟩

end FreeForm
