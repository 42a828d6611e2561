import FreeForm.Lexing
import FreeForm.Proofs.Reader.Conditional

namespace FreeForm

/-!
# Two signs of a directive line

While source is skipped, a line is known for a directive by its characters, and otherwise by its
lexemes. Both signs agree on every line that scans, whatever string it starts in. A line that has the
sign always scans, and so it is read in a skipped region without content and without a change of the
string. What can still be at fault there is the directive: a conditional is carried out in a skipped
region too, and it is malformed if it needs a name and has none.
-/

/-- The sign in the lexemes, with the lexeme that gives it. -/
theorem isSome_directiveText? {ls : List Lexeme} :
    (directiveText? ls).isSome = true ↔
      ∃ l, (ls.takeWhile (·.isLiminal)).find? (!·.isWhitespace) = some l ∧
        l.isDirective = true := by
  unfold directiveText?
  cases (ls.takeWhile (·.isLiminal)).find? (!·.isWhitespace) with
  | none => simp
  | some l => by_cases hl : l.isDirective = true <;> simp [hl]

theorem isDirective_iff_of_scanLine {carried : Option Char} {line : Text} {s : ScannedLine}
    (h : scanLine carried line = .ok s) :
    Line.isDirective line = true ↔ (directiveText? s.lexemes).isSome = true := by
  constructor
  · intro hline
    obtain ⟨s', hscan, _, htext, _⟩ := scanLine_of_isDirective carried hline
    rw [h] at hscan
    cases hscan
    rw [htext]
    rfl
  · intro hsome
    obtain ⟨text, htext⟩ := Option.isSome_iff_exists.mp hsome
    exact isDirective_of_scanLine h htext

/-- A line with the sign scans to liminal lexemes alone and leaves the string as it was. -/
theorem exists_scanLine_of_isDirective (carried : Option Char) {line : Text}
    (h : Line.isDirective line = true) :
    ∃ s, scanLine carried line = .ok s ∧ (∀ l ∈ s.lexemes, l.isLiminal = true) ∧
      s.openDelimiter = carried := by
  obtain ⟨s, hscan, hopen, _, hcontent⟩ := scanLine_of_isDirective carried h
  exact ⟨s, hscan, List.dropWhile_eq_nil_iff.mp hcontent, hopen⟩

namespace Directive

/-- A conditional that needs a name and has none. -/
def LacksCondition (text : Text) : Prop :=
  isConditionalLine text = true ∧ LacksName (body (line text))

/-- A conditional is read, unless it lacks its name. -/
theorem parse_of_isConditionalLine {text : Text} (h : isConditionalLine text = true) :
    (∃ d, parse text = .ok d ∧ d.isConditional = true) ∧ ¬LacksCondition text ∨
      LacksCondition text ∧ parse text = .error (.malformedDirective (line text) 0 .missingName) := by
  rcases parse_cases text with ⟨d, _, _, hread⟩ | ⟨hname, hread⟩ | ⟨hinclude, _⟩
  · have hd := isConditionalLine_of_parse hread
    rw [h] at hd
    refine .inl ⟨⟨d, hread, hd.symm⟩, fun hlacks => ?_⟩
    rw [parse, ofBody_of_lacksName (trim_body _) _ hlacks.2] at hread
    cases hread
  · exact .inr ⟨⟨h, hname⟩, hread⟩
  · -- no conditional starts like an include line
    obtain ⟨argument, hbody⟩ : ∃ argument, body (line text) = includeWord ++ argument := by
      rcases hinclude with ⟨⟨argument, hbody, _⟩, _⟩ | ⟨c, rest, hbody, _⟩
      · exact ⟨argument, hbody⟩
      · exact ⟨c :: rest, hbody⟩
    rw [isConditionalLine, hbody, ofText?_firstWord_include] at h
    cases h

end Directive

namespace Reader

/-- A directive in a skipped region can only turn the flag, and only a conditional without its name
is at fault. -/
theorem direct_of_suppressed (env : Environment) {r : Reader} (hs : r.isSuppressed = true)
    (text : Text) :
    (r.direct env text).reader.scanner = r.scanner ∧
      ((r.direct env text).result = .ok () ∧ ¬Directive.LacksCondition text ∨
        Directive.LacksCondition text ∧ (r.direct env text).result =
          .error (.malformedDirective (Directive.line text) r.lineNumber .missingName)) := by
  unfold direct
  cases htext : Directive.isConditionalLine text with
  | false =>
      rw [if_pos (by rw [hs]; rfl)]
      refine ⟨rfl, .inl ⟨rfl, fun hlacks => ?_⟩⟩
      rw [hlacks.1] at htext
      cases htext
  | true =>
      rw [if_neg (by simp)]
      rcases Directive.parse_of_isConditionalLine htext with ⟨⟨d, hread, hd⟩, hhas⟩ | ⟨hlacks, hread⟩
      · obtain ⟨suppressed, happly⟩ := r.preprocessor.apply_of_isConditional hd
        rw [hread]
        simp only [apply, happly, settle]
        exact ⟨trivial, .inl ⟨trivial, hhas⟩⟩
      · rw [hread]
        exact ⟨rfl, .inr ⟨hlacks, rfl⟩⟩

/-- What becomes of a directive line in a skipped region. -/
theorem read_of_suppressed (env : Environment) {r : Reader} (hs : r.isSuppressed = true)
    {line : Text} (hline : Line.isDirective line = true) :
    (r.read env (.ok line)).reader.scanner = r.scanner ∧
      (∀ parts, (r.read env (.ok line)).result = .ok parts → parts.content = []) ∧
      ∀ e, (r.read env (.ok line)).result = .error e ↔
        Directive.LacksCondition (Line.directiveText line) ∧
          e = .malformedDirective (Directive.line (Line.directiveText line)) (r.lineNumber + 1)
            .missingName := by
  have hcounted : isSuppressed { r with lineNumber := r.lineNumber + 1 } = true := hs
  obtain ⟨lexemes, hcontent, hread⟩ :=
    readText_of_isDirective { r with lineNumber := r.lineNumber + 1 } hline
  obtain ⟨hscanner, hresult⟩ := direct_of_suppressed env hcounted (Line.directiveText line)
  unfold read
  dsimp only
  rw [hread env]
  refine ⟨hscanner, fun parts hparts => ?_, fun e => ?_⟩
  · rw [eq_of_map_eq_ok hparts, hcontent]
  · dsimp only
    rcases hresult with ⟨hok, hhas⟩ | ⟨hlacks, herror⟩
    · rw [hok]
      refine iff_of_false (fun h => ?_) fun h => hhas h.1
      cases h
    · rw [herror]
      constructor
      · intro h
        cases h
        exact ⟨hlacks, rfl⟩
      · rintro ⟨_, rfl⟩
        rfl

end Reader

/-- The two signs of a directive line agree wherever the line scans. A line with the sign does scan, to
liminal lexemes alone, and leaves the string open that was open. In a skipped region it is read without
content and without a change of the string, and without an error unless it is a conditional that lacks
its name. -/
theorem isDirective_iff_lexemes (carried : Option Char) (line : Text) :
    (∀ s, scanLine carried line = .ok s →
      (Line.isDirective line = true ↔
        ∃ l, (s.lexemes.takeWhile (·.isLiminal)).find? (!·.isWhitespace) = some l ∧
          l.isDirective = true)) ∧
    (Line.isDirective line = true →
      (∃ s, scanLine carried line = .ok s ∧ (∀ l ∈ s.lexemes, l.isLiminal = true) ∧
        s.openDelimiter = carried) ∧
      ∀ (env : Environment) (r : Reader), r.isSuppressed = true →
        (r.read env (.ok line)).reader.scanner = r.scanner ∧
        (∀ parts, (r.read env (.ok line)).result = .ok parts → parts.content = []) ∧
        ∀ e, (r.read env (.ok line)).result = .error e ↔
          Directive.LacksCondition (Line.directiveText line) ∧
            e = .malformedDirective (Directive.line (Line.directiveText line)) (r.lineNumber + 1)
              .missingName) := by
  refine ⟨fun s hscan => ?_, fun hline => ⟨?_, fun env r hs => ?_⟩⟩
  · rw [isDirective_iff_of_scanLine hscan, isSome_directiveText?]
  · exact exists_scanLine_of_isDirective carried hline
  · exact Reader.read_of_suppressed env hs hline

/-- The other branch starts within a string that goes on behind it. -/
theorem isDirective_iff_lexemes_in_string :
    Line.isDirective " \t#else 'x &\n".toList = true ∧
      (∃ s, scanLine (some '"') " \t#else 'x &\n".toList = .ok s ∧ s.openDelimiter = some '"' ∧
        ∃ l, (s.lexemes.takeWhile (·.isLiminal)).find? (!·.isWhitespace) = some l ∧
          l.isDirective = true) ∧
      ∃ reading, reading = (Reader.mk none 3 ⟨some '"'⟩ ⟨.empty, true⟩ []).read
          (.ofConfiguration .none .standard) (.ok " \t#else 'x &\n".toList) ∧
        reading.result = .ok ⟨[" \t".toList, "#else 'x &".toList, "\n".toList], []⟩ ∧
        reading.reader.scanner = ⟨some '"'⟩ := by
  have hline : Line.isDirective " \t#else 'x &\n".toList = true := by decide +kernel
  obtain ⟨hsigns, hreads⟩ := isDirective_iff_lexemes (some '"') " \t#else 'x &\n".toList
  obtain ⟨⟨s, hscan, _, hopen⟩, hskipped⟩ := hreads hline
  obtain ⟨hscanner, _, _⟩ := hskipped (.ofConfiguration .none .standard)
    (Reader.mk none 3 ⟨some '"'⟩ ⟨.empty, true⟩ []) rfl
  exact ⟨hline, ⟨s, hscan, hopen, (hsigns s hscan).mp hline⟩, _, rfl, by decide +kernel, hscanner⟩

/-- A conditional without its name is at fault in a skipped region as well. -/
theorem read_of_nameless_conditional :
    (∃ r : Reader, r.isSuppressed = true ∧ Line.isDirective "#ifdef\n".toList = true ∧
      (r.read (.ofConfiguration .none .standard) (.ok "#ifdef\n".toList)).result =
        .error (.malformedDirective "#ifdef".toList 2 .missingName)) ∧
      tokenize .none "#ifdef N\n#ifdef\n#endif\n".toList =
        .error (.malformedDirective "#ifdef".toList 2 .missingName) := by
  refine ⟨⟨⟨none, 1, .start, ⟨.empty, true⟩, []⟩, rfl, ?_⟩, ?_⟩ <;> decide +kernel

end FreeForm
