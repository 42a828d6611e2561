import FreeForm.Continuation
import FreeForm.Event
import FreeForm.MacroTable
import FreeForm.Statement

namespace FreeForm

/-!
# Statements in the making

A draft holds the tokens of a statement read so far and the liminal text behind them. It takes the
lexemes of one line after another. A line leaves it open, when the line has no token or is continued,
or closes it, and then the lexemes behind a separator start the next statement.
-/

/-- The tokens of an unfinished statement, the newest first, and the liminal text behind them. -/
structure Draft where
  tokens : List Token
  liminals : List Text
  deriving DecidableEq

namespace Draft

/-- A draft of a statement that only liminal text precedes. -/
def ofLiminals (liminals : List Text) : Draft := ⟨[], liminals⟩

def addLiminals (d : Draft) (liminals : List Text) : Draft :=
  { d with liminals := d.liminals ++ liminals }

/-- Adds a token. The liminal text in front of it belongs to the token before, or to the token itself
when it is the first. -/
def addToken (d : Draft) (t : Token) : Draft :=
  match d.tokens with
  | [] => ⟨[t.addHead d.liminals], []⟩
  | newest :: older => ⟨t :: newest.addTail d.liminals :: older, []⟩

/-- Adds a semantic lexeme: its macro body, or itself. An invocation that is replaced by nothing is
kept as liminal text. -/
def addLexeme (macros : MacroTable) (d : Draft) (l : Lexeme) : Draft :=
  match macros.get? l.text with
  | none => d.addToken (.ofLexeme l)
  | some [] => d.addLiminals [l.text]
  | some body => (Token.expansion l.text body).foldl addToken d

def statement? (d : Draft) : Option Statement :=
  match d.tokens with
  | [] => none
  | newest :: older => Statement.ofTokens? (newest.addTail d.liminals :: older).reverse

/-- The source that a draft was read from. -/
def source (d : Draft) : Text :=
  d.tokens.reverse.flatMap Token.source ++ d.liminals.flatten

/-- What a line makes of a draft. -/
inductive Progress where
  /-- More lines belong to the statement, or it has no token yet. -/
  | open (d : Draft)
  /-- The statement is complete; the lexemes start the next one. -/
  | closed (s : Statement) (rest : List Lexeme)

/-- The diagnostic of an invocation, if a name is one. -/
def expansionOf (macros : MacroTable) (l : Lexeme) : List Finding :=
  match macros.get? l.text with
  | none => []
  | some body => [.macroExpanded l.text (body.map Lexeme.text)]

/-- Takes lexemes up to the end of the statement or of the line, with the macros met on the way. -/
def take (macros : MacroTable) : List Lexeme → Draft → Progress × List Finding
  | [], d =>
      match d.statement? with
      | none => (.open d, [])
      | some s => (.closed s [], [])
  | l :: ls, d =>
      match l.role with
      | .whitespace | .comment => take macros ls (d.addLiminals [l.text])
      | .separator =>
          let between := (l :: ls).takeWhile fun m => m.isLiminal || m.isContinuation
          let rest := (l :: ls).dropWhile fun m => m.isLiminal || m.isContinuation
          match (d.addLiminals (between.map Lexeme.text)).statement? with
          | none => take macros ls (d.addLiminals [l.text])
          | some s => (.closed s rest, [])
      | .continuation => (.open (d.addLiminals ((l :: ls).map Lexeme.text)), [])
      | .semantic =>
          let p := take macros ls (d.addLexeme macros l)
          (p.1, expansionOf macros l ++ p.2)

/-- A continuation mark at the front of a line, as liminal text, and the lexemes behind it. -/
def splitMark : List Lexeme → List Text × List Lexeme
  | [] => ([], [])
  | l :: ls => if l.isContinuation then ([l.text], ls) else ([], l :: ls)

/-- Takes the front of a line that may continue a statement: a token divided by the line break is
joined, and a leading continuation mark becomes liminal text. The lexemes left are returned. -/
def resume (d : Draft) (lexemes : List Lexeme) :
    Except LexError (Draft × List Lexeme × List Event) :=
  let (marks, rest) := splitMark lexemes
  match d.tokens, rest with
  | previous :: older, fragment :: rest' =>
      match Continuation.rejoin previous d.liminals (!marks.isEmpty) fragment with
      | .error e => .error e
      | .ok (some merged) => .ok (⟨merged :: older, []⟩, rest', [.rejoined merged.value])
      | .ok none => .ok (d.addLiminals marks, rest, [])
  | _, _ => .ok (d.addLiminals marks, rest, [])

@[simp] theorem source_addLiminals (d : Draft) (liminals : List Text) :
    (d.addLiminals liminals).source = d.source ++ liminals.flatten := by
  simp [source, addLiminals]

@[simp] theorem source_addToken (d : Draft) (t : Token) :
    (d.addToken t).source = d.source ++ t.source := by
  unfold addToken
  split <;> simp [source, *]

theorem source_foldl_addToken (d : Draft) (ts : List Token) :
    (ts.foldl addToken d).source = d.source ++ ts.flatMap Token.source := by
  induction ts generalizing d with
  | nil => simp
  | cons t ts ih => simp [ih]

/-- Whatever a lexeme is expanded to, the draft grows by its text. -/
@[simp] theorem source_addLexeme (macros : MacroTable) (d : Draft) (l : Lexeme) :
    (d.addLexeme macros l).source = d.source ++ l.text := by
  unfold addLexeme
  split
  · simp
  · simp
  · rename_i body hne _
    rw [source_foldl_addToken, Token.source_expansion l.text]
    simpa using hne

theorem source_of_statement? {d : Draft} {s : Statement} (h : d.statement? = some s) :
    s.source = d.source := by
  unfold statement? at h
  split at h
  · cases h
  · rename_i newest older hd
    unfold Statement.ofTokens? at h
    split at h
    · cases h
    · rename_i t ts hts
      cases h
      simp only [Statement.source]
      rw [← hts]
      simp [source, hd]

/-- The source that a draft's progress and the lexemes left amount to. -/
def Progress.source : Progress → Text
  | .open d => d.source
  | .closed s rest => s.source ++ Lexeme.concat rest

theorem source_take (macros : MacroTable) (ls : List Lexeme) (d : Draft) :
    (take macros ls d).1.source = d.source ++ Lexeme.concat ls := by
  induction ls generalizing d with
  | nil =>
      unfold take
      split
      · simp [Progress.source]
      · rename_i s hs
        simp [Progress.source, source_of_statement? hs]
  | cons l ls ih =>
      unfold take
      split
      · simp [ih]
      · simp [ih]
      · dsimp only
        split
        · simp [ih]
        · rename_i s hs
          have hcut := congrArg Lexeme.concat (List.takeWhile_append_dropWhile
            (p := fun m : Lexeme => m.isLiminal || m.isContinuation) (l := l :: ls))
          rw [Lexeme.concat_append] at hcut
          simp only [Progress.source, source_of_statement? hs, source_addLiminals]
          rw [List.append_assoc, ← hcut]
          simp [Lexeme.concat, List.flatMap_def]
      · simp [Progress.source, Lexeme.concat, List.flatMap_def]
      · simp [ih]

theorem length_splitMark_le (ls : List Lexeme) : (splitMark ls).2.length ≤ ls.length := by
  cases ls with
  | nil => simp [splitMark]
  | cons l ls => by_cases h : l.isContinuation <;> simp [splitMark, h]

/-- Taking the front of a line leaves no more lexemes than there were. -/
theorem length_le_of_resume {d d' : Draft} {ls rest : List Lexeme} {events : List Event}
    (h : d.resume ls = .ok (d', rest, events)) : rest.length ≤ ls.length := by
  have hle := length_splitMark_le ls
  unfold resume at h
  dsimp only at h
  split at h
  · rename_i previous older fragment rest' _ hrest
    rw [hrest, List.length_cons] at hle
    split at h
    · cases h
    · cases h
      omega
    · cases h
      rw [hrest, List.length_cons]
      omega
  · cases h
    exact hle

/-- A separator closes a statement and is not left over. -/
theorem length_lt_of_take {macros : MacroTable} {ls rest : List Lexeme} {d : Draft}
    {s : Statement} {findings : List Finding}
    (h : take macros ls d = (.closed s rest, findings)) (hrest : rest ≠ []) :
    rest.length < ls.length := by
  induction ls generalizing d findings with
  | nil =>
      unfold take at h
      split at h <;> cases h
      exact absurd rfl hrest
  | cons l ls ih =>
      unfold take at h
      split at h
      · exact Nat.lt_succ_of_lt (ih h)
      · exact Nat.lt_succ_of_lt (ih h)
      · dsimp only at h
        split at h
        · exact Nat.lt_succ_of_lt (ih h)
        · cases h
          rename_i hrole _ _
          have hl : l.isLiminal = true := by simp [Lexeme.isLiminal, hrole]
          rw [List.dropWhile_cons_of_pos (by simp [hl])]
          exact Nat.lt_succ_of_le (List.dropWhile_sublist _).length_le
      · cases h
      · have hp : (take macros ls (d.addLexeme macros l)).1 = .closed s rest := congrArg Prod.fst h
        exact Nat.lt_succ_of_lt (ih (Prod.ext hp rfl))

end Draft

end FreeForm
