import FreeForm.Proofs.Scan.DirectiveLine

namespace FreeForm

/-!
# What a line is read as

A line that is read is kept as it stands, because it is being skipped, or it is cut into its
lexemes. Either way its parts hold all of its text. A directive line is carried out whether or not
source is being skipped, and nothing of it is left for a statement.
-/

theorem eq_of_map_eq_ok {ε α β : Type} {x : Except ε α} {b c : β}
    (h : x.map (fun _ => b) = .ok c) : c = b := by
  cases x with
  | error e => cases h
  | ok a => exact (Except.ok.inj h).symm

theorem exists_of_map_toOption {ε α β : Type} {x : Except ε α} {f : α → β} {b : β}
    (h : x.toOption.map f = some b) : ∃ a, x = .ok a ∧ f a = b := by
  cases x with
  | error e => cases h
  | ok a => exact ⟨a, rfl, Option.some.inj h⟩

namespace LineParts

theorem ofLexemes_of_liminal {ls : List Lexeme} (h : ∀ l ∈ ls, l.isLiminal = true) :
    ofLexemes ls = ⟨ls.map Lexeme.text, []⟩ := by
  have hfront : (ls ++ []).takeWhile Lexeme.isLiminal = ls ++ [] :=
    List.takeWhile_append_of_pos h
  have hback : (ls ++ []).dropWhile Lexeme.isLiminal = [] := List.dropWhile_append_of_pos h
  rw [List.append_nil] at hfront hback
  rw [ofLexemes, hfront, hback]

theorem ofLexemes_append {lead : List Lexeme} (hlead : ∀ l ∈ lead, l.isLiminal = true)
    {l : Lexeme} (hl : l.isLiminal = false) (ls : List Lexeme) :
    ofLexemes (lead ++ l :: ls) = ⟨lead.map Lexeme.text, l :: ls⟩ := by
  rw [ofLexemes, List.takeWhile_append_of_pos hlead, List.dropWhile_append_of_pos hlead,
    List.takeWhile_cons_of_neg (by simp [hl]), List.dropWhile_cons_of_neg (by simp [hl]),
    List.append_nil]

end LineParts

namespace Reader

theorem readText_of_skipped {env : Environment} {r : Reader} {line : Text}
    (hs : r.isSuppressed = true) (hline : Line.isDirective line = false) :
    r.readText env line = ⟨.ok ⟨Line.verbatim line, []⟩, r, []⟩ := by
  simp [readText, hs, hline]

theorem readText_of_isDirective (r : Reader) {line : Text}
    (hline : Line.isDirective line = true) :
    ∃ lexemes, (LineParts.ofLexemes lexemes).content = [] ∧ ∀ env,
      r.readText env line =
        ⟨(r.direct env (Line.directiveText line)).result.map fun _ => .ofLexemes lexemes,
          (r.direct env (Line.directiveText line)).reader,
          (r.direct env (Line.directiveText line)).events⟩ := by
  obtain ⟨lexemes, hscan, htext, hcontent⟩ := r.scanner.scan_of_isDirective hline
  refine ⟨lexemes, hcontent, ?_⟩
  simp [readText, hline, hscan, htext]

theorem readText_of_scan (env : Environment) {r : Reader} {line : Text}
    (hs : r.isSuppressed = false) (hline : Line.isDirective line = false) :
    r.readText env line =
      match r.scanner.scan line with
      | (.error e, _) => ⟨.error (e.atLine r.lineNumber), r, []⟩
      | (.ok lexemes, scanner) =>
          ⟨.ok (.ofLexemes lexemes), { r with scanner := scanner }, []⟩ := by
  simp only [readText, hs, Bool.false_and, Bool.false_eq_true, if_false]
  cases hscan : r.scanner.scan line with
  | mk result scanner =>
      cases result with
      | error e => rfl
      | ok lexemes =>
          dsimp only
          rw [Scanner.directiveText?_of_scan hscan hline]

/-- What becomes of a line: it is carried out as a directive, skipped, or scanned, which may fail. -/
inductive ReadsTo (env : Environment) (r : Reader) (line : Text) : Reading LineParts → Prop
  | directive {lexemes : List Lexeme} (hline : Line.isDirective line = true)
      (hcontent : (LineParts.ofLexemes lexemes).content = []) :
      ReadsTo env r line
        ⟨(r.direct env (Line.directiveText line)).result.map fun _ => .ofLexemes lexemes,
          (r.direct env (Line.directiveText line)).reader,
          (r.direct env (Line.directiveText line)).events⟩
  | skipped (hline : Line.isDirective line = false) (hs : r.isSuppressed = true) :
      ReadsTo env r line ⟨.ok ⟨Line.verbatim line, []⟩, r, []⟩
  | unscanned {e : LexError} {scanner : Scanner} (hline : Line.isDirective line = false)
      (hs : r.isSuppressed = false) (hscan : r.scanner.scan line = (.error e, scanner)) :
      ReadsTo env r line ⟨.error (e.atLine r.lineNumber), r, []⟩
  | scanned {lexemes : List Lexeme} {scanner : Scanner} (hline : Line.isDirective line = false)
      (hs : r.isSuppressed = false) (hscan : r.scanner.scan line = (.ok lexemes, scanner)) :
      ReadsTo env r line ⟨.ok (.ofLexemes lexemes), { r with scanner := scanner }, []⟩

theorem readsTo_readText (env : Environment) (r : Reader) (line : Text) :
    ReadsTo env r line (r.readText env line) := by
  cases hline : Line.isDirective line with
  | true =>
      obtain ⟨lexemes, hcontent, hread⟩ := r.readText_of_isDirective hline
      rw [hread]
      exact .directive hline hcontent
  | false =>
      cases hs : r.isSuppressed with
      | true =>
          rw [readText_of_skipped hs hline]
          exact .skipped hline hs
      | false =>
          rw [readText_of_scan env hs hline]
          cases hscan : r.scanner.scan line with
          | mk result scanner =>
              cases result with
              | error e => exact .unscanned hline hs hscan
              | ok lexemes => exact .scanned hline hs hscan

/-- The reader behind a line that leaves a string open, or no string. -/
def opened (r : Reader) (o : Option Char) (n : Nat) : Reader :=
  { r with lineNumber := n, scanner := ⟨o⟩ }

/-- A line is scanned where no source is skipped. -/
theorem read_of_scanLine (env : Environment) {r : Reader} (hactive : r.isSuppressed = false)
    {line : Text} (hline : Line.isDirective line = false) {lexemes : List Lexeme}
    {o : Option Char} (hscan : scanLine r.scanner.openDelimiter line = .ok ⟨lexemes, o⟩) :
    r.read env (.ok line) =
      ⟨.ok (.ofLexemes lexemes), r.opened o (r.lineNumber + 1), []⟩ := by
  have hcounted : isSuppressed { r with lineNumber := r.lineNumber + 1 } = false := hactive
  have hread := readText_of_scan env hcounted hline
  have hscanner : r.scanner.scan line = (.ok lexemes, ⟨o⟩) := by simp [Scanner.scan, hscan]
  dsimp only at hread
  rw [hscanner] at hread
  exact hread

/-- A line that does not scan changes nothing but the number of the line. -/
theorem read_of_scanLine_error (env : Environment) {r : Reader} (hactive : r.isSuppressed = false)
    {line : Text} {e : LexError} (hscan : scanLine r.scanner.openDelimiter line = .error e) :
    r.read env (.ok line) = ⟨.error (e.atLine (r.lineNumber + 1)),
      { r with lineNumber := r.lineNumber + 1 }, []⟩ := by
  have hline : Line.isDirective line = false := by
    cases hdirective : Line.isDirective line with
    | false => rfl
    | true =>
        obtain ⟨s, hs, _⟩ := scanLine_of_isDirective r.scanner.openDelimiter hdirective
        rw [hscan] at hs
        cases hs
  have hcounted : isSuppressed { r with lineNumber := r.lineNumber + 1 } = false := hactive
  have hread := readText_of_scan env hcounted hline
  have hscanner : r.scanner.scan line = (.error e, r.scanner) := by simp [Scanner.scan, hscan]
  dsimp only at hread
  rw [hscanner] at hread
  exact hread

theorem parts_of_readText {env : Environment} {r : Reader} {line : Text} {parts : LineParts}
    (h : (r.readText env line).result = .ok parts) :
    parts = ⟨Line.verbatim line, []⟩ ∨
      ∃ lexemes scanner, r.scanner.scan line = (.ok lexemes, scanner) ∧
        parts = .ofLexemes lexemes := by
  unfold readText at h
  split at h
  · cases h
    exact Or.inl rfl
  · split at h
    · cases h
    · rename_i lexemes scanner hscan
      refine Or.inr ⟨lexemes, scanner, hscan, ?_⟩
      dsimp only at h
      split at h
      · cases h
        rfl
      · exact eq_of_map_eq_ok h

theorem text_of_read {env : Environment} {r : Reader} {line : Text} {parts : LineParts}
    (h : (r.read env (.ok line)).result = .ok parts) : parts.text = line := by
  rcases parts_of_readText h with rfl | ⟨lexemes, scanner, hscan, rfl⟩
  · simp [LineParts.text, Line.verbatim_flatten]
  · rw [LineParts.text_ofLexemes, Scanner.concat_of_scan hscan]

/-- The continuation lexemes of a line are marks. -/
theorem mark_of_mem_content {env : Environment} {r : Reader} {line : SourceLine}
    {parts : LineParts} (h : (r.read env line).result = .ok parts) {l : Lexeme}
    (hl : l ∈ parts.content) (hk : l.kind = .continuation) :
    l.text = [Lexeme.continuationMark] := by
  cases line with
  | error fault => cases h
  | ok text =>
      rcases parts_of_readText h with rfl | ⟨lexemes, scanner, hscan, rfl⟩
      · cases hl
      · exact Scanner.text_of_mem_scan hscan ((List.dropWhile_sublist _).mem hl) hk

/-- A line that is read as nothing but liminal text. -/
def ReadsLiminal (env : Environment) (r : Reader) (line : Text) (r' : Reader) : Prop :=
  ∃ lead events, r.read env (.ok line) = ⟨.ok ⟨lead, []⟩, r', events⟩

/-- Whole lines that are read one after another as nothing but liminal text. -/
inductive Passes (env : Environment) : List Text → Reader → Reader → Prop
  | nil (r : Reader) : Passes env [] r r
  | cons {line : Text} {lines : List Text} {r r' r'' : Reader}
      (hend : line.getLast? = some '\n') (hline : r.ReadsLiminal env line r')
      (hlines : Passes env lines r' r'') : Passes env (line :: lines) r r''

theorem Passes.append {env : Environment} {ms ns : List Text} {r r' r'' : Reader}
    (hm : Passes env ms r r') (hn : Passes env ns r' r'') : Passes env (ms ++ ns) r r'' := by
  induction hm with
  | nil r => exact hn
  | cons hend hline _ ih => exact .cons hend hline (ih hn)

theorem Passes.line {env : Environment} {line : Text} {r r' : Reader}
    (hend : line.getLast? = some '\n') (hline : r.ReadsLiminal env line r') : Passes env [line] r r' :=
  .cons hend hline (.nil r')

end Reader

end FreeForm
