import FreeForm.Proofs.Reader.Alike
import FreeForm.Proofs.Reader.DirectiveForms
import FreeForm.Proofs.Reader.KeywordLine

namespace FreeForm

/-!
# Reading conditionals

A conditional line is carried out whether or not source is being skipped, and all it changes is the
flag. No other line changes the flag, and while it is set no other line changes anything at all: not
even a line that does not scan, or a directive that is malformed.
-/

namespace Directive

theorem isConditionalLine_of_parse {text : Text} {d : Directive} (h : parse text = .ok d) :
    isConditionalLine text = d.isConditional :=
  (writtenAs_of_parse h).1.any_isConditional (trim_body _)

end Directive

namespace Line

/-- Whether a line is a conditional directive. -/
def isConditional (line : Text) : Bool :=
  isDirective line && Directive.isConditionalLine (directiveText line)

/-- The line that asks for a name. -/
def ifdef (name : Text) : Text :=
  "#ifdef ".toList ++ name ++ ['\n']

/-- The line that turns to the other branch. -/
def otherwise : Text := "#else\n".toList

/-- The line that ends a conditional. -/
def endif : Text := "#endif\n".toList

theorem parse_ifdef {name : Text} (hname : name ≠ [])
    (hword : ∀ c ∈ name, Unicode.isWhiteSpace c = false) :
    Directive.parse (directiveText (ifdef name)) = .ok (.ifdef name) := by
  have hline : ifdef name = keyword .ifdef name := rfl
  rw [hline, parse_keyword, Text.trim_word hword]
  simp only [Directive.ofKeyword, Text.firstWord_word hword, Directive.required, if_neg hname]
  rfl

end Line

namespace Reader

variable (env : Environment)

theorem isSuppressed_includeFile (r : Reader) (name : Path) :
    (r.includeFile env name).reader.isSuppressed = r.isSuppressed := by
  unfold includeFile
  dsimp only
  split
  case h_6 bytes lex _ _ =>
    cases (lex (Path.join env.root name) (.ofBytes bytes) r.macros).result <;> rfl
  all_goals rfl

theorem isSuppressed_settle (r : Reader) (outcome : Outcome) :
    (r.settle env outcome).reader.isSuppressed = r.isSuppressed := by
  cases outcome with
  | applied => rfl
  | includeFile name => exact isSuppressed_includeFile env r name
  | report finding => rfl

theorem isSuppressed_apply (r : Reader) {d : Directive} (hd : d.isConditional = false) :
    (r.apply env d).reader.isSuppressed = r.isSuppressed := by
  unfold apply
  dsimp only
  cases happly : r.preprocessor.apply d with
  | error e => rfl
  | ok result =>
      have hsettled := isSuppressed_settle env { r with preprocessor := result.2 } result.1
      exact hsettled.trans (Preprocessor.suppressed_of_apply happly hd)

theorem isSuppressed_direct (r : Reader) {text : Text}
    (htext : Directive.isConditionalLine text = false) :
    (r.direct env text).reader.isSuppressed = r.isSuppressed := by
  unfold direct
  split
  · rfl
  · cases hparse : Directive.parse text with
    | error e => rfl
    | ok d =>
        rw [Directive.isConditionalLine_of_parse hparse] at htext
        exact isSuppressed_apply env r htext

theorem isSuppressed_read (r : Reader) {line : Text} (hline : Line.isConditional line = false) :
    (r.read env (.ok line)).reader.isSuppressed = r.isSuppressed := by
  have hcases := readsTo_readText env { r with lineNumber := r.lineNumber + 1 } line
  unfold read
  dsimp only
  generalize readText env { r with lineNumber := r.lineNumber + 1 } line = reading at hcases ⊢
  cases hcases with
  | directive hdirective =>
      have htext : Directive.isConditionalLine (Line.directiveText line) = false := by
        simpa [Line.isConditional, hdirective] using hline
      exact isSuppressed_direct env _ htext
  | skipped | unscanned | scanned => rfl

/-- While source is skipped, a line that is no conditional does nothing. -/
theorem readsLiminal_of_skipped {r : Reader} (hs : r.isSuppressed = true) {line : Text}
    (hline : Line.isConditional line = false) :
    r.ReadsLiminal env line (r.atLine (r.lineNumber + 1)) := by
  have hskipped : isSuppressed { r with lineNumber := r.lineNumber + 1 } = true := hs
  unfold ReadsLiminal read
  dsimp only
  cases hdirective : Line.isDirective line with
  | true =>
      have htext : Directive.isConditionalLine (Line.directiveText line) = false := by
        simpa [Line.isConditional, hdirective] using hline
      obtain ⟨lexemes, hcontent, hread⟩ :=
        readText_of_isDirective { r with lineNumber := r.lineNumber + 1 } hdirective
      refine ⟨(LineParts.ofLexemes lexemes).lead, [.passedOver (r.lineNumber + 1)], ?_⟩
      rw [hread]
      simp only [direct, hskipped, htext, Bool.not_false, Bool.and_self, if_true, Except.map]
      rw [← hcontent]
      rfl
  | false => exact ⟨_, _, readText_of_skipped hskipped hdirective⟩

/-- A directive that is not passed over is carried out and leaves no content. -/
theorem readsLiminal_of_applied (r : Reader) {line : Text} {d : Directive} {p : Preprocessor}
    (hline : Line.isDirective line = true)
    (hparse : Directive.parse (Line.directiveText line) = .ok d)
    (hheeded : (r.isSuppressed && !Directive.isConditionalLine (Line.directiveText line)) = false)
    (happly : r.preprocessor.apply d = .ok (.applied, p)) :
    r.ReadsLiminal env line { r with lineNumber := r.lineNumber + 1, preprocessor := p } := by
  have hcounted : (isSuppressed { r with lineNumber := r.lineNumber + 1 } &&
      !Directive.isConditionalLine (Line.directiveText line)) = false := hheeded
  obtain ⟨lexemes, hcontent, hread⟩ :=
    readText_of_isDirective { r with lineNumber := r.lineNumber + 1 } hline
  unfold ReadsLiminal read
  dsimp only
  rw [hread]
  simp only [direct, hcounted, hparse, apply, happly, settle, Bool.false_eq_true, if_false,
    Except.map]
  exact ⟨(LineParts.ofLexemes lexemes).lead, _, by rw [← hcontent]⟩

/-- A conditional is carried out and leaves no content. -/
theorem readsLiminal_of_conditional (r : Reader) {line : Text} {d : Directive}
    {p : Preprocessor} (hline : Line.isDirective line = true)
    (hparse : Directive.parse (Line.directiveText line) = .ok d) (hd : d.isConditional = true)
    (happly : r.preprocessor.apply d = .ok (.applied, p)) :
    r.ReadsLiminal env line { r with lineNumber := r.lineNumber + 1, preprocessor := p } := by
  have htext : Directive.isConditionalLine (Line.directiveText line) = true := by
    rw [Directive.isConditionalLine_of_parse hparse, hd]
  refine readsLiminal_of_applied env r hline hparse ?_ happly
  rw [htext, Bool.not_true, Bool.and_false]

/-- The reader behind a conditional line. -/
def turned (r : Reader) (suppressed : Bool) : Reader :=
  { r with lineNumber := r.lineNumber + 1, preprocessor := ⟨r.macros, suppressed⟩ }

/-- An active reader that skipped something goes on as before. -/
theorem turned_turned {r : Reader} (hactive : r.isSuppressed = false) (n : Nat) :
    ((r.turned true).atLine n).turned false = r.atLine (n + 1) := by
  obtain ⟨_, _, _, ⟨_, suppressed⟩, _⟩ := r
  obtain rfl : suppressed = false := hactive
  rfl

theorem turned_false {r : Reader} (hactive : r.isSuppressed = false) :
    r.turned false = r.atLine (r.lineNumber + 1) := by
  obtain ⟨_, _, _, ⟨_, suppressed⟩, _⟩ := r
  obtain rfl : suppressed = false := hactive
  rfl

theorem readsLiminal_ifdef (r : Reader) {name : Text} (hname : name ≠ [])
    (hword : ∀ c ∈ name, Unicode.isWhiteSpace c = false) :
    r.ReadsLiminal env (Line.ifdef name) (r.turned (r.isSuppressed || !r.macros.contains name)) := by
  have hcarried : ∀ s, Preprocessor.skips ⟨r.macros, s⟩ (.ifdef name) = false := fun s => by
    cases s <;> rfl
  refine readsLiminal_of_conditional env r rfl (Line.parse_ifdef hname hword) rfl ?_
  have happly : r.preprocessor.skips (.ifdef name) = false := hcarried _
  simp only [Preprocessor.apply, happly]
  rfl

theorem readsLiminal_otherwise (r : Reader) :
    r.ReadsLiminal env Line.otherwise (r.turned (!r.isSuppressed)) := by
  refine readsLiminal_of_conditional env r (d := .otherwise) rfl rfl rfl ?_
  have happly : r.preprocessor.skips .otherwise = false := by
    simp [Preprocessor.skips, Directive.isConditional]
  simp only [Preprocessor.apply, happly]
  rfl

theorem readsLiminal_endif (r : Reader) : r.ReadsLiminal env Line.endif (r.turned false) := by
  refine readsLiminal_of_conditional env r (d := .endif) rfl rfl rfl ?_
  have happly : r.preprocessor.skips .endif = false := by
    simp [Preprocessor.skips, Directive.isConditional]
  simp only [Preprocessor.apply, happly]
  rfl

variable {env}

/-- A skipped region is passed over, whatever it holds. -/
theorem passes_of_skipped {lines : List Text} (hends : ∀ line ∈ lines, line.getLast? = some '\n')
    (hlines : ∀ line ∈ lines, Line.isConditional line = false) {r : Reader}
    (hs : r.isSuppressed = true) : ∃ n, Passes env lines r (r.atLine n) := by
  induction lines generalizing r with
  | nil => exact ⟨r.lineNumber, .nil r⟩
  | cons line lines ih =>
      obtain ⟨hend, hends⟩ := List.forall_mem_cons.mp hends
      obtain ⟨hline, hlines⟩ := List.forall_mem_cons.mp hlines
      have hread := readsLiminal_of_skipped env hs hline
      obtain ⟨n, hpasses⟩ := ih hends hlines (r := r.atLine (r.lineNumber + 1)) hs
      exact ⟨n, .cons hend hread hpasses⟩

section Branches

variable {name : Text} (hname : name ≠ []) (hword : ∀ c ∈ name, Unicode.isWhiteSpace c = false)
  {r : Reader} (hactive : r.isSuppressed = false)

theorem getLast?_ifdef (name : Text) : (Line.ifdef name).getLast? = some '\n' := by
  unfold Line.ifdef
  exact List.getLast?_concat

include hname hword hactive

/-- The first branch is taken when the name is bound. -/
theorem passes_to_first (hbound : r.macros.contains name = true) :
    ∃ n, Passes env [Line.ifdef name] r (r.atLine n) := by
  have hread := readsLiminal_ifdef env r hname hword
  rw [hactive, hbound] at hread
  refine ⟨r.lineNumber + 1, ?_⟩
  rw [← turned_false hactive]
  exact .line (getLast?_ifdef name) hread

/-- Otherwise it is passed over, with the two lines around it. -/
theorem passes_to_second (hbound : r.macros.contains name = false) {lines : List Text}
    (hends : ∀ line ∈ lines, line.getLast? = some '\n')
    (hlines : ∀ line ∈ lines, Line.isConditional line = false) :
    ∃ n, Passes env (Line.ifdef name :: lines ++ [Line.otherwise]) r (r.atLine n) := by
  have hread := readsLiminal_ifdef env r hname hword
  rw [hactive, hbound] at hread
  obtain ⟨n, hskipped⟩ : ∃ n, Passes env lines (r.turned true) ((r.turned true).atLine n) :=
    passes_of_skipped hends hlines rfl
  have hback := readsLiminal_otherwise env ((r.turned true).atLine n)
  have hpassed := (Passes.cons (getLast?_ifdef name) hread hskipped).append (.line rfl hback)
  exact ⟨n + 1, turned_turned hactive n ▸ hpassed⟩

omit hname hword

/-- Behind the first branch the second one is passed over, with the two lines around it. -/
theorem passes_from_first {lines : List Text}
    (hends : ∀ line ∈ lines, line.getLast? = some '\n')
    (hlines : ∀ line ∈ lines, Line.isConditional line = false) :
    ∃ n, Passes env (Line.otherwise :: lines ++ [Line.endif]) r (r.atLine n) := by
  have hread := readsLiminal_otherwise env r
  rw [hactive] at hread
  obtain ⟨n, hskipped⟩ : ∃ n, Passes env lines (r.turned true) ((r.turned true).atLine n) :=
    passes_of_skipped hends hlines rfl
  have hback := readsLiminal_endif env ((r.turned true).atLine n)
  have hpassed := (Passes.cons rfl hread hskipped).append (.line rfl hback)
  exact ⟨n + 1, turned_turned hactive n ▸ hpassed⟩

theorem passes_from_second : ∃ n, Passes env [Line.endif] r (r.atLine n) := by
  refine ⟨r.lineNumber + 1, ?_⟩
  rw [← turned_false hactive]
  exact .line rfl (readsLiminal_endif env r)

end Branches

end Reader

end FreeForm
