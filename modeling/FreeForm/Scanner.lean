import FreeForm.LexError
import FreeForm.Line.Scan

namespace FreeForm

/-!
# Scanning lines

A line scans into lexemes that end with its line end, or it holds a character that starts no lexeme.
A scanner carries the delimiter of an open string from line to line and is left as it was by a line
that does not scan.
-/

/-- The lexemes of one line and the delimiter of the string still open at its end. -/
structure ScannedLine where
  lexemes : List Lexeme
  openDelimiter : Option Char
  deriving DecidableEq, Repr

namespace ScannedLine

/-- A scanned content with its line end, or the error at the character that stopped the scan. -/
def ofScan (line : Text) (s : Line.Scan) : Except LexError ScannedLine :=
  match s.rest with
  | [] => .ok ⟨s.lexemes ++ [⟨.lineEnd, Line.terminator line⟩], s.openDelimiter⟩
  | c :: rest => .error (.unexpectedCharacter c 0 ((Line.body line).length - rest.length))

end ScannedLine

/-- Scans one line, offering each name to `rename`; a replacement is not scanned again. -/
def scanLineWith (rename : Text → Option Text) (carried : Option Char) (line : Text) :
    Except LexError ScannedLine :=
  ScannedLine.ofScan line (Line.scan rename carried (Line.body line))

/-- Scans one line, given the delimiter of the string it starts in, if any. -/
def scanLine (carried : Option Char) (line : Text) : Except LexError ScannedLine :=
  scanLineWith (fun _ => none) carried line

/-- A line has at most one lexeme for each character, and its line end. -/
theorem length_lexemes_scanLine_le {carried : Option Char} {line : Text} {s : ScannedLine}
    (h : scanLine carried line = .ok s) : s.lexemes.length ≤ line.length + 1 := by
  have hscan := Line.length_lexemes_scan_le (fun _ => none) carried (Line.body line)
  have hline := congrArg List.length (Line.body_append_terminator line)
  rw [List.length_append] at hline
  unfold scanLine scanLineWith ScannedLine.ofScan at h
  split at h
  · cases h
    simp only [List.length_append, List.length_singleton]
    omega
  · cases h

/-- The names of a line that have a replacement, with it, up to where scanning stops. -/
def renamings (rename : Text → Option Text) (carried : Option Char) (line : Text) :
    List (Text × Text) :=
  (Line.scan (fun _ => none) carried (Line.body line)).lexemes.filterMap fun l =>
    if l.kind = .name then (rename l.text).map (l.text, ·) else none

/-- The delimiter of the string that the next line starts in. -/
structure Scanner where
  openDelimiter : Option Char
  deriving DecidableEq, Repr

namespace Scanner

def start : Scanner := ⟨none⟩

def scan (s : Scanner) (line : Text) : Except LexError (List Lexeme) × Scanner :=
  match scanLine s.openDelimiter line with
  | .ok scanned => (.ok scanned.lexemes, ⟨scanned.openDelimiter⟩)
  | .error e => (.error e, s)

/-- Scans lines in order, up to the first that does not scan. -/
def scanAll (s : Scanner) : List Text → Except LexError (List (List Lexeme))
  | [] => .ok []
  | line :: lines =>
      match s.scan line with
      | (.ok lexemes, s') => (scanAll s' lines).map (lexemes :: ·)
      | (.error e, _) => .error e

end Scanner

def scanText (t : Text) : Except LexError (List (List Lexeme)) :=
  Scanner.start.scanAll t.lines

end FreeForm
