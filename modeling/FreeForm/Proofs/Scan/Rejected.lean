import FreeForm.Scanner

namespace FreeForm

/-!
# Lines that do not scan

A scanner is used on behind a line that does not scan. Such a line may have opened and closed strings
in front of the character that stopped it, but nothing of this is kept: what comes behind is scanned
as if the line were not there.
-/

namespace Scanner

/-- Scans lines one after another, whether or not they scan: the result of each line, and the scanner
behind it. -/
def scanEach (s : Scanner) : List Text → List (Except LexError (List Lexeme) × Scanner)
  | [] => []
  | line :: lines => s.scan line :: scanEach (s.scan line).2 lines

/-- The lines that scan when each line is scanned behind the others. -/
def accepted (s : Scanner) (lines : List Text) : List Text :=
  ((lines.zip (s.scanEach lines)).filter (·.2.1.isOk)).map Prod.fst

theorem accepted_cons (s : Scanner) (line : Text) (lines : List Text) :
    s.accepted (line :: lines) =
      if (s.scan line).1.isOk then line :: (s.scan line).2.accepted lines
      else (s.scan line).2.accepted lines := by
  rw [accepted, scanEach, List.zip_cons_cons, List.filter_cons, apply_ite (List.map Prod.fst),
    List.map_cons]
  rfl

/-- The scanner is left as it was by a line that does not scan. -/
theorem scan_of_not_isOk {s : Scanner} {line : Text} (h : (s.scan line).1.isOk = false) :
    (s.scan line).2 = s := by
  unfold scan at h ⊢
  split at h
  · cases h
  · rfl

/-- The lines that scan make up a text that scans. -/
theorem scanAll_accepted (s : Scanner) (lines : List Text) :
    s.scanAll (s.accepted lines) = .ok ((s.scanEach lines).filterMap (·.1.toOption)) := by
  induction lines generalizing s with
  | nil => rfl
  | cons line lines ih =>
      rw [accepted_cons, scanEach, List.filterMap_cons]
      cases hscan : s.scan line with
      | mk result s' =>
        have hrest := ih s'
        cases result with
        | error e =>
            have herror : (s.scan line).1.isOk = false := by rw [hscan]; rfl
            have hkept := scan_of_not_isOk herror
            rw [hscan] at hkept
            obtain rfl : s' = s := hkept
            exact hrest
        | ok row =>
            have hwhole : s.scanAll (line :: s'.accepted lines) =
                (s'.scanAll (s'.accepted lines)).map (row :: ·) := by
              rw [scanAll, hscan]
            exact hwhole.trans (congrArg (Except.map (row :: ·)) hrest)

/-- Without the lines that do not scan every other line gives the same, and leaves the same string
open; together these lines scan. -/
theorem scanEach_accepted (s : Scanner) (lines : List Text) :
    s.scanEach (s.accepted lines) = (s.scanEach lines).filter (·.1.isOk) ∧
      s.scanAll (s.accepted lines) = .ok ((s.scanEach lines).filterMap (·.1.toOption)) := by
  refine ⟨?_, s.scanAll_accepted lines⟩
  induction lines generalizing s with
  | nil => rfl
  | cons line lines ih =>
      rw [accepted_cons, scanEach, List.filter_cons, ← ih]
      split
      · rfl
      · rename_i herror
        rw [scan_of_not_isOk (Bool.eq_false_iff.mpr herror)]

/-- The second line closes the string that the first leaves open and then does not scan; the third
starts in the string all the same. -/
example : (start.scanEach ["x = 'a&\n".toList, "' ^\n".toList, "b' ! c\n".toList]).map
    (fun step => (step.1.toOption.map (·.map Lexeme.text), step.2.openDelimiter)) =
      [(some ["x".toList, " ".toList, "=".toList, " ".toList, "'a".toList, "&".toList,
        "\n".toList], some '\''), (none, some '\''),
        (some ["b'".toList, " ".toList, "! c".toList, "\n".toList], none)] := by
  decide +kernel

end Scanner

end FreeForm
