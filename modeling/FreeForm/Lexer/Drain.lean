import FreeForm.Lexer

namespace FreeForm

/-!
# Draining a lexer

Each statement yielded takes something from what is left to read. So a lexer can be asked for
statements until it has no more, and what it yielded is a document.
-/

namespace Lexer

/-- A bound on what a line yields: its lexemes, its line end, and the reading of it. -/
def lineSize : SourceLine → Nat
  | .ok line => line.length + 2
  | .error _ => 1

def sourceSize : Source → Nat
  | [] => 0
  | line :: lines => lineSize line + sourceSize lines

/-- How much there is left to read, at most. -/
def remaining (x : Lexer) : Nat :=
  x.cache.length + sourceSize x.lines

theorem lineSize_pos (line : SourceLine) : 0 < lineSize line := by
  cases line <;> simp [lineSize]

theorem length_content_lt {env : Environment} {r : Reader} {line : SourceLine}
    {parts : LineParts} (h : (r.read env line).result = .ok parts) :
    parts.content.length < lineSize line := by
  cases line with
  | error fault => cases h
  | ok text =>
      have hparts := Reader.length_content_le h
      simp only [lineSize]
      omega

theorem remaining_atEnd (r : Reader) (phase : Phase) : (atEnd r phase).lexer.remaining = 0 := by
  unfold atEnd
  split
  · split <;> rfl
  · rfl

theorem remaining_atError (r : Reader) (lines : Source) (e : LexError) (phase : Phase) :
    (atError r lines e phase).lexer.remaining = sourceSize lines := by
  unfold atError
  split <;> exact Nat.zero_add _

theorem remaining_consume_lt {lines : Source} {next : Reader → Phase → Step}
    (hnext : ∀ r phase, (next r phase).lexer.remaining ≤ sourceSize lines)
    (r : Reader) (d : Draft) {content : List Lexeme} (hc : content ≠ []) :
    (consume r lines next d content).lexer.remaining < content.length + sourceSize lines := by
  have hpos := List.length_pos_iff.2 hc
  unfold consume
  split
  · simp only [remaining, List.length_nil]
    omega
  · rename_i hr
    have hle := Draft.length_le_of_resume hr
    dsimp only [Step.after]
    split
    · exact Nat.lt_of_le_of_lt (hnext _ _) (by omega)
    · exact Nat.lt_of_le_of_lt (hnext _ _) (by omega)
    · rename_i l ls ht
      have hlt := Draft.length_lt_of_take (Prod.ext ht rfl) (List.cons_ne_nil l ls)
      simp only [remaining]
      omega

theorem remaining_atContent_le {lines : Source} {next : Reader → Phase → Step}
    (hnext : ∀ r phase, (next r phase).lexer.remaining ≤ sourceSize lines)
    (r : Reader) {content : List Lexeme} (hc : content ≠ []) (phase : Phase) :
    (atContent r lines next content phase).lexer.remaining ≤
      content.length + sourceSize lines := by
  unfold atContent
  split
  · exact Nat.le_of_lt (remaining_consume_lt hnext r _ hc)
  · exact Nat.le_refl _

theorem remaining_advance_le (env : Environment) (lines : Source) (r : Reader) (phase : Phase) :
    (advance env lines r phase).lexer.remaining ≤ sourceSize lines := by
  induction lines generalizing r phase with
  | nil => exact Nat.le_of_eq (remaining_atEnd r phase)
  | cons line lines ih =>
      unfold advance
      dsimp only [Step.after]
      rw [sourceSize]
      split
      · exact Nat.le_trans (Nat.le_of_eq (remaining_atError _ _ _ _)) (Nat.le_add_left _ _)
      · rename_i parts hparts
        have hlt := length_content_lt hparts
        split
        · exact Nat.le_trans (ih _ _) (Nat.le_add_left _ _)
        · rename_i l ls hcontent
          rw [hcontent] at hlt
          exact Nat.le_trans (remaining_atContent_le ih _ (List.cons_ne_nil l ls) _)
            (Nat.add_le_add_right (Nat.le_of_lt hlt) _)

/-- Unless the source is at its end, advancing reads something. -/
theorem remaining_advance_lt (env : Environment) {lines : Source} (h : lines ≠ [])
    (r : Reader) (phase : Phase) :
    (advance env lines r phase).lexer.remaining < sourceSize lines := by
  cases lines with
  | nil => exact absurd rfl h
  | cons line lines =>
      have hpos := lineSize_pos line
      unfold advance
      dsimp only [Step.after]
      rw [sourceSize]
      split
      · exact Nat.lt_of_le_of_lt (Nat.le_of_eq (remaining_atError _ _ _ _)) (by omega)
      · rename_i parts hparts
        have hlt := length_content_lt hparts
        split
        · exact Nat.lt_of_le_of_lt (remaining_advance_le env lines _ _) (by omega)
        · rename_i l ls hcontent
          rw [hcontent] at hlt
          exact Nat.lt_of_le_of_lt
            (remaining_atContent_le (remaining_advance_le env lines) _ (List.cons_ne_nil l ls) _)
            (Nat.add_lt_add_right hlt _)

/-- A statement is never yielded for nothing. -/
theorem remaining_next_lt (env : Environment) (x : Lexer) {s : Statement}
    (h : (x.next env).yield = .statement s) : (x.next env).lexer.remaining < x.remaining := by
  unfold next at h ⊢
  split
  · rename_i hs
    simp [hs] at h
  · rename_i hs
    simp [hs] at h
  · rename_i hs
    simp only [hs] at h
    split
    · rename_i hc
      simp only [hc] at h
      by_cases hl : x.lines = []
      · simp [hl, advance, atEnd, Draft.ofLiminals, Draft.statement?] at h
      · simp only [remaining, hc, List.length_nil, Nat.zero_add]
        exact remaining_advance_lt env hl _ _
    · rename_i l ls hc
      have hlt := remaining_consume_lt (remaining_advance_le env x.lines) x.reader
        (.ofLiminals x.pending) (List.cons_ne_nil l ls)
      simpa only [remaining, hc] using hlt

structure Yielded where
  statements : List Statement
  failure : Option LexError
  lexer : Lexer
  events : List Event

def Yielded.cons (s : Statement) (events : List Event) (y : Yielded) : Yielded :=
  { y with statements := s :: y.statements, events := events ++ y.events }

/-- Asks a lexer for statements until there are no more. -/
def drain (env : Environment) (x : Lexer) : Yielded :=
  match _h : x.next env with
  | ⟨.finished, y, events⟩ => ⟨[], none, y, events⟩
  | ⟨.failure e, y, events⟩ => ⟨[], some e, y, events⟩
  | ⟨.statement s, y, events⟩ => (drain env y).cons s events
termination_by x.remaining
decreasing_by
  have hr := remaining_next_lt env x (by rw [_h])
  rw [_h] at hr
  exact hr

/-- Lexes the rest of a source. -/
def run (env : Environment) (x : Lexer) : Run :=
  let y := x.drain env
  let result : Except LexError Document :=
    match y.failure with
    | some e => .error e
    | none => .ok ⟨y.statements, y.lexer.pending, y.lexer.reader.inclusions⟩
  ⟨result, y.lexer.macros, y.events⟩

end Lexer

end FreeForm
