import FreeForm.Proofs.Reader.Alike
import FreeForm.Proofs.Reader.Parts
import FreeForm.Proofs.Scan.Quotation

namespace FreeForm

/-!
# Idle lines

A line that is blank or holds nothing but a comment is idle. Wherever it stands it scans to liminal
text and leaves an open string open, so that a reader only counts it, whether or not source is being
skipped.
-/

namespace Line

/-- Whether a line is blank or holds nothing but a comment. -/
def isIdle (line : Text) : Bool :=
  ((body line).dropWhile isBlank).head?.all (· == '!')

theorem scan_blanks (carried : Option Char) {t : Text} (h : t.all isBlank = true) :
    scan (fun _ => none) carried t = ⟨blanks t, carried, []⟩ := by
  cases carried with
  | none => exact scanFresh_blanks h
  | some q =>
      have hall : ∀ c ∈ t, isBlank c = true := List.all_eq_true.mp h
      have hleft : (t ++ []).dropWhile isBlank = [] := List.dropWhile_append_of_pos hall
      rw [List.append_nil] at hleft
      have hopen : isBlankOrComment t = true := by rw [isBlankOrComment, hleft]; rfl
      simp [scan, scanCarried, hopen, scanFresh_blanks h]

/-- An idle line is liminal text, and a string that it stands in goes on behind it. -/
theorem scan_of_isIdle (carried : Option Char) {line : Text} (h : isIdle line = true) :
    ∃ lexemes, scan (fun _ => none) carried (body line) = ⟨lexemes, carried, []⟩ ∧
      ∀ l ∈ lexemes, l.isLiminal = true := by
  unfold isIdle at h
  cases hrest : (body line).dropWhile isBlank with
  | nil =>
      have hblank : (body line).all isBlank = true :=
        List.all_eq_true.mpr (List.dropWhile_eq_nil_iff.mp hrest)
      exact ⟨_, scan_blanks carried hblank, isLiminal_of_mem_blanks⟩
  | cons c rest =>
      obtain rfl : c = '!' := by simpa [hrest] using h
      refine ⟨_, scan_of_comment carried hrest (by decide), fun l hl => ?_⟩
      rcases List.mem_append.mp hl with hl | hl
      · exact isLiminal_of_mem_blanks l hl
      · rw [List.mem_singleton.mp hl]
        rfl

theorem isDirective_of_isIdle {line : Text} (h : isIdle line = true) :
    isDirective line = false := by
  rw [Bool.eq_false_iff]
  intro hdirective
  obtain ⟨rest, hrest⟩ := head?_directiveText hdirective
  rw [← dropWhile_body] at hrest
  simp [isIdle, hrest, Lexeme.directiveMark] at h

/-- What is idle without its line feed is idle with it. -/
theorem isIdle_append_feed {t : Text} (h : (t.dropWhile isBlank).head?.all (· == '!') = true) :
    isIdle (t ++ ['\n']) = true := by
  rw [isIdle, dropWhile_body, directiveText, List.dropWhile_append]
  cases hrest : t.dropWhile isBlank with
  | nil => rfl
  | cons c rest =>
      obtain rfl : c = '!' := by simpa [hrest] using h
      rw [if_neg (by simp), List.cons_append, body_cons_of_ne (by decide) (by decide)]
      rfl

end Line

namespace Reader

variable {env : Environment}

/-- Whatever a reader is in the middle of, it only counts an idle line. -/
theorem readsLiminal_of_isIdle (r : Reader) {line : Text} (h : Line.isIdle line = true) :
    r.ReadsLiminal env line (r.atLine (r.lineNumber + 1)) := by
  have hdirective := Line.isDirective_of_isIdle h
  cases hs : r.isSuppressed with
  | true =>
      have hskipped : isSuppressed (r.atLine (r.lineNumber + 1)) = true := hs
      exact ⟨_, [], readText_of_skipped hskipped hdirective⟩
  | false =>
      obtain ⟨lexemes, hscan, hliminal⟩ := Line.scan_of_isIdle r.scanner.openDelimiter h
      have hscanned : scanLine r.scanner.openDelimiter line =
          .ok ⟨lexemes ++ [⟨.lineEnd, Line.terminator line⟩], r.scanner.openDelimiter⟩ := by
        simp only [scanLine, scanLineWith, hscan, ScannedLine.ofScan]
      have hread := read_of_scanLine env hs hdirective hscanned
      have hall : ∀ l ∈ lexemes ++ [⟨.lineEnd, Line.terminator line⟩], l.isLiminal = true := by
        intro l hl
        rcases List.mem_append.mp hl with hl | hl
        · exact hliminal l hl
        · rw [List.mem_singleton.mp hl]
          rfl
      rw [LineParts.ofLexemes_of_liminal hall] at hread
      exact ⟨_, [], hread⟩

theorem passes_of_isIdle {lines : List Text}
    (h : ∀ line ∈ lines, line.getLast? = some '\n' ∧ Line.isIdle line = true) (r : Reader) :
    ∃ n, Passes env lines r (r.atLine n) := by
  induction lines generalizing r with
  | nil => exact ⟨r.lineNumber, .nil r⟩
  | cons line lines ih =>
      obtain ⟨⟨hend, hline⟩, hlines⟩ := List.forall_mem_cons.mp h
      obtain ⟨n, hpasses⟩ := ih hlines (r.atLine (r.lineNumber + 1))
      exact ⟨n, .cons hend (readsLiminal_of_isIdle r hline) hpasses⟩

end Reader

end FreeForm
