import FreeForm.Lexing
import FreeForm.Proofs.Lexer.Assembly
import FreeForm.Proofs.Reader.Inclusions
import FreeForm.Proofs.Reader.Survey
import FreeForm.Proofs.Scan.Faults

namespace FreeForm

/-!
# Where lexing stops

A source that includes no file fails at a line that cannot be read, or at a line whose first lexeme
is to be joined to the token in front of it and makes a text with it that does not scan. The error
of a line carries its number, and the column counts on the line or, in a definition, in the body.
The error of a join is passed on as the scan of the joined text gave it: it carries no line, and its
column counts in a text that stands nowhere in the source.
-/

theorem Directive.malformed_of_parse {text : Text} {e : LexError} (h : parse text = .error e) :
    ∃ directive fault, e = .malformedDirective directive 0 fault := by
  rcases parse_cases text with ⟨d, _, _, hread⟩ | ⟨_, hread⟩ | ⟨_, hread⟩ <;>
    rw [hread] at h <;> cases h
  · exact ⟨_, _, rfl⟩
  · exact ⟨_, _, rfl⟩

/-- What the error of a line points at, when the line is the `n`th. -/
inductive Line.Blames (n : Nat) (t : Text) : LexError → Prop
  | character {c : Char} {k : Nat} (hline : isDirective t = false) (hc : t[k]? = some c) :
      Blames n t (.unexpectedCharacter c n (k + 1))
  | body {name body : Text} {c : Char} {k : Nat} (hline : isDirective t = true)
      (hparse : Directive.parse (directiveText t) = .ok (.define name body))
      (hc : body[k]? = some c) : Blames n t (.unexpectedCharacter c n (k + 1))
  | malformed (directive : Text) (fault : DirectiveFault) :
      Blames n t (.malformedDirective directive n fault)

namespace Reader

theorem blames_of_direct {env : Environment} {r : Reader} {line : Text} {e : LexError}
    (hline : Line.isDirective line = true)
    (hplain : ∀ path system, Directive.parse (Line.directiveText line) ≠
      .ok (.includeFile path system))
    (h : (r.direct env (Line.directiveText line)).result = .error e) :
    Line.Blames r.lineNumber line e := by
  unfold direct at h
  split at h
  · cases h
  · cases hparse : Directive.parse (Line.directiveText line) with
    | error f =>
        simp only [hparse] at h
        cases h
        obtain ⟨directive, fault, rfl⟩ := Directive.malformed_of_parse hparse
        exact .malformed directive fault
    | ok d =>
        simp only [hparse] at h
        unfold apply at h
        cases happly : r.preprocessor.apply d with
        | error f =>
            simp only [happly] at h
            cases h
            obtain ⟨name, body, rfl, hdefine⟩ := Preprocessor.define_of_apply happly
            obtain ⟨c, k, rfl, hk⟩ := MacroTable.pointsInto_of_define hdefine
            exact .body hline hparse hk
        | ok result =>
            obtain ⟨outcome, preprocessor⟩ := result
            simp only [happly] at h
            rcases Preprocessor.outcome_of_apply happly fun path system heq =>
                hplain path system (by rw [hparse, heq]) with rfl | ⟨finding, rfl, _⟩ <;> cases h

/-- A line that cannot be read is blamed for it under its own number. -/
theorem blames_of_read {env : Environment} {r : Reader} {line : Text} {e : LexError}
    (hline : Line.includedName? line = none) (h : (r.read env (.ok line)).result = .error e) :
    Line.Blames (r.lineNumber + 1) line e := by
  have hread : ∀ x : Reader, (x.readText env line).result = .error e →
      Line.Blames x.lineNumber line e := by
    intro x hx
    have hcases := readsTo_readText env x line
    generalize x.readText env line = reading at hx hcases
    cases hcases with
    | directive hdirective =>
        cases hdirect : (x.direct env (Line.directiveText line)).result with
        | error f =>
            rw [hdirect] at hx
            cases hx
            exact blames_of_direct hdirective (parse_ne_of_includedName? hline hdirective) hdirect
        | ok u =>
            rw [hdirect] at hx
            cases hx
    | skipped | scanned => cases hx
    | unscanned hdirective hs hscan =>
        cases hx
        unfold Scanner.scan at hscan
        cases hline : scanLine x.scanner.openDelimiter line with
        | error f =>
            rw [hline] at hscan
            cases hscan
            obtain ⟨c, k, rfl, hk⟩ :=
              (pointsInto_of_scanLine hline).of_isPrefix (Line.prefix_body line)
            exact .character hdirective hk
        | ok scanned =>
            rw [hline] at hscan
            cases hscan
  exact hread { r with lineNumber := r.lineNumber + 1 } h

end Reader

/-- The first lexeme of a line is offered to be joined to the newest token of a draft, and the text
of both does not scan. -/
structure Draft.JoinFails (d : Draft) (content : List Lexeme) (joined : Text) (e : LexError) :
    Prop where
  parts : ∃ previous older fragment rest, d.tokens = previous :: older ∧
    (splitMark content).2 = fragment :: rest ∧ previous.isExpanded = false ∧
    fragment.isSemantic = true ∧
    Continuation.isAdjacent d.liminals (!(splitMark content).1.isEmpty) = true ∧
    joined = previous.value ++ fragment.text
  fault : scanLine none (joined ++ ['\n']) = .error e

theorem Draft.joinFails_of_resume {d : Draft} {content : List Lexeme} {e : LexError}
    (h : d.resume content = .error e) : ∃ joined, d.JoinFails content joined e := by
  unfold resume at h
  dsimp only at h
  split at h
  · rename_i previous older fragment rest htokens hrest
    split at h
    · rename_i f hrejoin
      cases h
      unfold Continuation.rejoin at hrejoin
      split at hrejoin
      · cases hrejoin
      · rename_i hguard
        simp only [Bool.or_eq_true, Bool.not_eq_true', not_or, Bool.not_eq_true,
          Bool.not_eq_false] at hguard
        obtain ⟨⟨hwritten, hsemantic⟩, hadjacent⟩ := hguard
        split at hrejoin
        · rename_i hscan
          cases hrejoin
          exact ⟨_, ⟨previous, older, fragment, rest, htokens, hrest, hwritten, hsemantic,
            hadjacent, rfl⟩, hscan⟩
        · split at hrejoin <;> cases hrejoin
    · cases h
    · cases h
  · cases h

theorem Draft.JoinFails.pointsInto {d : Draft} {content : List Lexeme} {joined : Text}
    {e : LexError} (h : d.JoinFails content joined e) : e.PointsInto joined :=
  pointsInto_of_scanLine_feed h.fault

/-- Behind the first statement of a line there is nothing to join. -/
theorem Lexer.resume_of_takeContent {r : Reader} {d : Draft} {content : List Lexeme} {e : LexError}
    (h : (takeContent r d content).result = .error e) : d.resume content = .error e := by
  fun_induction takeContent r d content with
  | case1 d content f hresume =>
      cases h
      exact hresume
  | case2 | case3 => cases h
  | case4 d content next rest joined hresume s l ls findings htake ih =>
      have hfresh := ih h
      cases hfresh

/-- A line fails to be read, or to be joined to an unfinished statement. -/
theorem Phase.takeReading_error {p : Phase} {reading : Reading LineParts} {e : LexError}
    (h : (p.takeReading reading).result = .error e) :
    reading.result = .error e ∨
      ∃ parts d joined, reading.result = .ok parts ∧ p = .building d ∧
        (d.addLiminals parts.lead).JoinFails parts.content joined e := by
  unfold takeReading at h
  cases hresult : reading.result with
  | error f =>
      rw [hresult] at h
      cases h
      exact Or.inl rfl
  | ok parts =>
      rw [hresult] at h
      unfold takeParts at h
      refine Or.inr ?_
      obtain ⟨lead, content⟩ := parts
      cases content with
      | nil => cases h
      | cons l ls =>
          cases p with
          | building d =>
              obtain ⟨joined, hjoin⟩ := Draft.joinFails_of_resume (Lexer.resume_of_takeContent h)
              exact ⟨_, d, joined, rfl, rfl, hjoin⟩
          | complete s ahead =>
              have hfresh := Lexer.resume_of_takeContent h
              cases hfresh

/-- Behind some lines of a text the next one fails to be joined to the statement it continues. -/
def JoinFails (env : Environment) (r : Reader) (p : Phase) (lines : List Text) (joined : Text)
    (e : LexError) : Prop :=
  ∃ front line back d parts, lines = front ++ line :: back ∧
    (assemble env (front.map .ok) r p).result = .ok (.building d) ∧
    ((assemble env (front.map .ok) r p).reader.read env (.ok line)).result = .ok parts ∧
    (d.addLiminals parts.lead).JoinFails parts.content joined e

theorem lineNumber_assemble {env : Environment} {lines : Source} {r : Reader} {p phase : Phase}
    (h : (assemble env lines r p).result = .ok phase) :
    (assemble env lines r p).reader.lineNumber = r.lineNumber + lines.length := by
  induction lines generalizing r p with
  | nil => rfl
  | cons line lines ih =>
      unfold assemble Taking.followedBy at h ⊢
      cases htaken : (p.takeReading (r.read env line)).result with
      | error e =>
          rw [htaken] at h
          cases h
      | ok phase' =>
          rw [htaken] at h
          have hread : (r.read env line).reader.lineNumber = r.lineNumber + 1 :=
            (Reader.grown_read env r line).lineNumber
          have hbehind := ih h
          simp only [Assembly.prepend, List.length_cons]
          omega

/-- The line that lexing stops at, behind lines that were taken. -/
theorem exists_of_assemble_error {env : Environment} {lines : List Text} {r : Reader} {p : Phase}
    {e : LexError} {rest : Source}
    (h : (assemble env (lines.map .ok) r p).result = .error (e, rest)) :
    ∃ front line back phase, lines = front ++ line :: back ∧
      (assemble env (front.map .ok) r p).result = .ok phase ∧
      (phase.takeReading ((assemble env (front.map .ok) r p).reader.read env (.ok line))).result =
        .error e := by
  induction lines generalizing r p with
  | nil => cases h
  | cons line lines ih =>
      rw [List.map_cons, assemble] at h
      cases htaken : (p.takeReading (r.read env (.ok line))).result with
      | error f =>
          rw [Taking.followedBy, htaken] at h
          cases h
          exact ⟨[], line, lines, p, rfl, rfl, htaken⟩
      | ok phase' =>
          rw [Taking.followedBy, htaken] at h
          obtain ⟨front, line', back, phase, rfl, hfront, hfault⟩ := ih h
          refine ⟨line :: front, line', back, phase, rfl, ?_⟩
          rw [List.map_cons, assemble, Taking.followedBy, htaken]
          exact ⟨hfront, hfault⟩

theorem Line.infix_directiveText (line : Text) : directiveText line <:+: line :=
  (prefix_body _).isInfix.trans (List.dropWhile_suffix _).isInfix

theorem eq_error_of_map {ε α β : Type} {x : Except ε α} {f : α → β} {e : ε}
    (h : x.map f = .error e) : x = .error e := by
  cases x with
  | error e' => exact congrArg Except.error (Except.error.inj h)
  | ok a => cases h

namespace Lexer

/-- A run that fails has failed at one of the lines of its source. -/
theorem exists_of_run_error {env : Environment} {source : Source} {macros : MacroTable}
    {name : Option Path} {e : LexError}
    (h : ((start source macros name).run env).result = .error e) :
    ∃ rest, (assemble env source (.start name macros) (.building (.ofLiminals []))).result =
      .error (e, rest) := by
  rw [run_start] at h
  generalize assemble env source (.start name macros) (.building (.ofLiminals [])) = a at h ⊢
  obtain ⟨ss, r, result, es⟩ := a
  cases result with
  | error failed =>
      obtain ⟨f, rest⟩ := failed
      cases h
      exact ⟨rest, rfl⟩
  | ok phase => cases h

/-- Where in some lines a character that starts no lexeme is reported. -/
inductive Reported (env : Environment) (macros : MacroTable) (name : Option Path)
    (lines : List Text) (c : Char) : Nat → Nat → Prop
  /-- On its line, at its column. -/
  | line {n k : Nat} {t : Text} (hline : lines[n]? = some t)
      (hdirective : Line.isDirective t = false) (hc : t[k]? = some c) :
      Reported env macros name lines c (n + 1) (k + 1)
  /-- On its line, at its column in the body of a definition. -/
  | body {n k : Nat} {t macroName body : Text} (hline : lines[n]? = some t)
      (hdirective : Line.isDirective t = true)
      (hparse : Directive.parse (Line.directiveText t) = .ok (.define macroName body))
      (hbody : body <:+: t) (hc : body[k]? = some c) :
      Reported env macros name lines c (n + 1) (k + 1)
  /-- On no line, at its column in the text of two parts to be joined. -/
  | joined {k : Nat} {joined : Text}
      (hjoin : JoinFails env (.start name macros) (.building (.ofLiminals [])) lines joined
        (.unexpectedCharacter c 0 (k + 1)))
      (hc : joined[k]? = some c) : Reported env macros name lines c 0 (k + 1)

/-- A character is reported on its line, unless two parts could not be joined, and at its column,
unless a definition was scanned as well. -/
theorem reported_of_run {env : Environment} {macros : MacroTable} {name : Option Path} {t : Text}
    (hplain : ∀ line ∈ t.lines, Line.includedName? line = none) {c : Char} {line column : Nat}
    (h : ((start (.ofText t) macros name).run env).result =
      .error (.unexpectedCharacter c line column)) :
    Reported env macros name t.lines c line column := by
  obtain ⟨rest, hfailed⟩ := exists_of_run_error h
  obtain ⟨front, physical, back, phase, hlines, hfront, hfault⟩ :=
    exists_of_assemble_error hfailed
  rcases Phase.takeReading_error hfault with hread | ⟨parts, d, joined, hread, rfl, hjoin⟩
  · have hphysical : Line.includedName? physical = none := hplain physical (by simp [hlines])
    have hnumber := lineNumber_assemble hfront
    have hat : t.lines[front.length]? = some physical := by simp [hlines]
    have hblames := Reader.blames_of_read hphysical hread
    rw [hnumber, List.length_map] at hblames
    have hstart : (Reader.start name macros).lineNumber = 0 := rfl
    rw [hstart, Nat.zero_add] at hblames
    cases hblames with
    | character hdirective hc => exact .line hat hdirective hc
    | body hdirective hparse hc =>
        refine .body hat hdirective hparse ?_ hc
        exact (Directive.infix_of_parse hparse).trans (Line.infix_directiveText physical)
  · obtain ⟨c', k, heq, hk⟩ := hjoin.pointsInto
    cases heq
    exact .joined ⟨front, physical, back, d, parts, hlines, hfront, hread, hjoin⟩ hk

theorem reported_of_run_of_second_line :
    ((start (.ofText "#define X a\nb = X^c\n".toList) .empty none).run
      ⟨.none, [], 0, none⟩).result = .error (.unexpectedCharacter '^' 2 6) ∧
    Reported ⟨.none, [], 0, none⟩ .empty none (Text.lines "#define X a\nb = X^c\n".toList)
      '^' 2 6 := by
  have hvalues : ((start (.ofText "#define X a\nb = X^c\n".toList) .empty none).run
      ⟨.none, [], 0, none⟩).result.map Document.values =
        .error (.unexpectedCharacter '^' 2 6) := by
    decide +kernel
  have hresult := eq_error_of_map hvalues
  exact ⟨hresult, reported_of_run (by decide +kernel) hresult⟩

/-- The column of a character in the body of a definition is not its column on the line, and two
parts that cannot be joined are reported on no line. -/
theorem run_of_faulty_body :
    ((start (.ofText "#define X a^b\n".toList) .empty none).run
      ⟨.none, [], 0, none⟩).result.map Document.values = .error (.unexpectedCharacter '^' 1 2) ∧
    Text.lines "#define X a^b\n".toList = ["#define X a^b\n".toList] ∧
    "#define X a^b\n".toList[1]? = some 'd' ∧
    ((start (.ofText "1&\n&e²\n".toList) .empty none).run
      ⟨.none, [], 0, none⟩).result.map Document.values = .error (.unexpectedCharacter '²' 0 3) := by
  refine ⟨?_, ?_, ?_, ?_⟩ <;> decide +kernel

end Lexer

end FreeForm
