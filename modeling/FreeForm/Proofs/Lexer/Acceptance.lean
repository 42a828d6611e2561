import FreeForm.Proofs.Lexer.Faults

namespace FreeForm

/-!
# Which texts are lexed

A text without directive lines is scanned line by line on its way into statements, so it is lexed
just when it scans, and fails at the same line with the same character. The parts that it joins over
line ends are scanned once more, though, and lexing fails at a join that scanning knows nothing of.
-/

theorem Scanner.scanAll_of_append {s s' : Scanner} {lines : List Text} {rows : List (List Lexeme)}
    (h : ∀ more, s.scanAll (lines ++ more) = (s'.scanAll more).map (rows ++ ·)) :
    s.scanAll lines = .ok rows := by
  have hall := h []
  rw [List.append_nil] at hall
  simpa [scanAll, Except.map] using hall

/-- Behind lines that were taken the scanner stands where scanning them leaves it. -/
theorem scanAll_of_assemble {env : Environment} {lines : List Text} {r : Reader} {p : Phase}
    (hactive : r.isSuppressed = false)
    (hlines : ∀ line ∈ lines, Line.isDirective line = false) {phase : Phase}
    (h : (assemble env (lines.map .ok) r p).result = .ok phase) :
    (assemble env (lines.map .ok) r p).reader.isSuppressed = false ∧
      ∃ rows, ∀ more, r.scanner.scanAll (lines ++ more) =
        ((assemble env (lines.map .ok) r p).reader.scanner.scanAll more).map (rows ++ ·) := by
  induction lines generalizing r p with
  | nil =>
      refine ⟨hactive, [], fun more => ?_⟩
      rw [List.nil_append, List.map_nil, assemble]
      cases r.scanner.scanAll more <;> rfl
  | cons line lines ih =>
      obtain ⟨hline, hlines⟩ := List.forall_mem_cons.mp hlines
      rw [List.map_cons, assemble] at h ⊢
      cases hscan : scanLine r.scanner.openDelimiter line with
      | error e =>
          rw [Reader.read_of_scanLine_error env hactive hscan] at h
          cases h
      | ok scanned =>
          obtain ⟨lexemes, o⟩ := scanned
          rw [Reader.read_of_scanLine env hactive hline hscan] at h ⊢
          have hscanned : r.scanner.scan line = (.ok lexemes, ⟨o⟩) := by
            simp [Scanner.scan, hscan]
          generalize htaken : p.takeReading ⟨.ok (.ofLexemes lexemes),
            r.opened o (r.lineNumber + 1), []⟩ = taken at h ⊢
          obtain ⟨ss, result, events⟩ := taken
          cases result with
          | error e => cases h
          | ok phase' =>
              obtain ⟨hbehind, rows, hrows⟩ :=
                ih (r := r.opened o (r.lineNumber + 1)) hactive hlines h
              refine ⟨hbehind, lexemes :: rows, fun more => ?_⟩
              have hmore := hrows more
              rw [List.cons_append, Scanner.scanAll, hscanned]
              refine (congrArg (Except.map (lexemes :: ·)) hmore).trans ?_
              simp only [Taking.followedBy, Assembly.prepend]
              cases Scanner.scanAll _ more <;> rfl

namespace Lexer

/-- The result of lexing a text that comes out as scanning it does: both give one, or both stop at the
same character of the first line that does not scan. -/
inductive AsScanned (t : Text) : Except LexError Document → Prop
  | ok {d : Document} {rows : List (List Lexeme)} (hscan : scanText t = .ok rows) :
      AsScanned t (.ok d)
  | rejected {n column : Nat} {c : Char} {rows : List (List Lexeme)}
      (hscan : scanText t = .error (.unexpectedCharacter c 0 column))
      (hfront : Scanner.start.scanAll (t.lines.take n) = .ok rows)
      (hfirst : Scanner.start.scanAll (t.lines.take (n + 1)) =
        .error (.unexpectedCharacter c 0 column)) :
      AsScanned t (.error (.unexpectedCharacter c (n + 1) column))

/-- Unless it fails at a join, lexing a text comes out as scanning the text does. -/
theorem asScanned_or_joinFails (env : Environment) (macros : MacroTable) (name : Option Path)
    {t : Text} (hlines : ∀ line ∈ t.lines, Line.isDirective line = false) :
    AsScanned t ((start (.ofText t) macros name).run env).result ∨
      ∃ joined e, ((start (.ofText t) macros name).run env).result = .error e ∧
        JoinFails env (.start name macros) (.building (.ofLiminals [])) t.lines joined e := by
  cases hrun : ((start (.ofText t) macros name).run env).result with
  | ok d =>
      obtain ⟨phase, hphase, _⟩ := exists_of_run hrun
      obtain ⟨_, rows, hrows⟩ := scanAll_of_assemble rfl hlines hphase
      exact Or.inl (.ok (Scanner.scanAll_of_append hrows))
  | error e =>
      obtain ⟨rest, hfailed⟩ := exists_of_run_error hrun
      obtain ⟨front, line, back, phase, hcut, hfront, hfault⟩ := exists_of_assemble_error hfailed
      rcases Phase.takeReading_error hfault with hread | ⟨parts, d, joined, hread, rfl, hjoin⟩
      · have hfronts : ∀ line ∈ front, Line.isDirective line = false := fun line hline =>
          hlines line (by simp [hcut, hline])
        have hline : Line.isDirective line = false := hlines line (by simp [hcut])
        obtain ⟨hactive, rows, hrows⟩ := scanAll_of_assemble rfl hfronts hfront
        have hnumber := lineNumber_assemble hfront
        rw [List.length_map] at hnumber
        generalize (assemble env (front.map .ok) (.start name macros)
          (.building (.ofLiminals []))).reader = r at hactive hrows hnumber hread
        cases hscan : scanLine r.scanner.openDelimiter line with
        | ok scanned =>
            rw [Reader.read_of_scanLine env hactive hline hscan] at hread
            cases hread
        | error f =>
            rw [Reader.read_of_scanLine_error env hactive hscan] at hread
            cases hread
            obtain ⟨c, k, rfl, _⟩ := pointsInto_of_scanLine hscan
            have hstops : ∀ back, r.scanner.scanAll (line :: back) =
                .error (.unexpectedCharacter c 0 (k + 1)) := by
              intro back
              simp [Scanner.scanAll, Scanner.scan, hscan]
            have hstart : (Reader.start name macros).lineNumber = 0 := rfl
            rw [hnumber, hstart, Nat.zero_add]
            have hwhole : scanText t = .error (.unexpectedCharacter c 0 (k + 1)) := by
              rw [scanText, hcut]
              refine (hrows (line :: back)).trans ?_
              rw [hstops]
              rfl
            have haccepted : Scanner.start.scanAll (t.lines.take front.length) = .ok rows := by
              rw [hcut, List.take_left' rfl]
              exact Scanner.scanAll_of_append hrows
            have hfirst : Scanner.start.scanAll (t.lines.take (front.length + 1)) =
                .error (.unexpectedCharacter c 0 (k + 1)) := by
              have htake : t.lines.take (front.length + 1) = front ++ [line] := by
                rw [hcut, List.take_length_add_append]
                rfl
              rw [htake]
              refine (hrows [line]).trans ?_
              rw [hstops]
              rfl
            exact Or.inl (.rejected hwhole haccepted hfirst)
      · refine Or.inr ⟨joined, e, rfl, ?_⟩
        exact ⟨front, line, back, d, parts, hcut, hfront, hread, hjoin⟩

theorem asScanned_or_joinFails_of_rejected :
    ((start (.ofText "a = b&\n &b\nc ^ d\n".toList) .empty none).run
      ⟨.none, [], 0, none⟩).result.map Document.values = .error (.unexpectedCharacter '^' 3 3) ∧
    (AsScanned "a = b&\n &b\nc ^ d\n".toList
        ((start (.ofText "a = b&\n &b\nc ^ d\n".toList) .empty none).run
          ⟨.none, [], 0, none⟩).result ∨
      ∃ joined e, ((start (.ofText "a = b&\n &b\nc ^ d\n".toList) .empty none).run
          ⟨.none, [], 0, none⟩).result = .error e ∧
        JoinFails ⟨.none, [], 0, none⟩ (.start none .empty) (.building (.ofLiminals []))
          (Text.lines "a = b&\n &b\nc ^ d\n".toList) joined e) :=
  ⟨by decide +kernel, asScanned_or_joinFails _ _ _ (by decide +kernel)⟩

/-- Two lines that scan, and parts that do not scan when put together. -/
theorem run_of_unjoinable :
    ((start (.ofText "1&\n&e²\n".toList) .empty none).run
      ⟨.none, [], 0, none⟩).result.map Document.values = .error (.unexpectedCharacter '²' 0 3) ∧
    scanText "1&\n&e²\n".toList = .ok
      [[⟨.number, "1".toList⟩, ⟨.continuation, "&".toList⟩, ⟨.lineEnd, "\n".toList⟩],
        [⟨.continuation, "&".toList⟩, ⟨.name, "e²".toList⟩, ⟨.lineEnd, "\n".toList⟩]] := by
  constructor <;> decide +kernel

end Lexer

end FreeForm
