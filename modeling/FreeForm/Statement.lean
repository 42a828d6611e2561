import FreeForm.Token

namespace FreeForm

/-!
# Statements

A logical statement is a non-empty row of tokens. Their liminal text included, the tokens spell the
stretch of source that the statement was read from.
-/

structure Statement where
  tokens : List Token
  nonempty : tokens ≠ []
  deriving DecidableEq

namespace Statement

def ofTokens? : List Token → Option Statement
  | [] => none
  | t :: ts => some ⟨t :: ts, List.cons_ne_nil t ts⟩

def values (s : Statement) : List Text :=
  s.tokens.map Token.value

/-- The statement as it stands in the source. -/
def source (s : Statement) : Text :=
  s.tokens.flatMap Token.source

/-- The statement with macros expanded and split tokens joined. -/
def expanded (s : Statement) : Text :=
  s.tokens.flatMap Token.expanded

/-- The token values on one line, with a middle dot between each two. -/
def display (s : Statement) : Text :=
  Text.join [' ', '·', ' '] s.values

/-- Adds liminal text behind the last of some tokens. -/
def addTailTo (liminals : List Text) : List Token → List Token
  | [] => []
  | [t] => [t.addTail liminals]
  | t :: u :: ts => t :: addTailTo liminals (u :: ts)

theorem addTailTo_ne_nil (liminals : List Text) {ts : List Token} (h : ts ≠ []) :
    addTailTo liminals ts ≠ [] := by
  cases ts with
  | nil => exact absurd rfl h
  | cons t ts => cases ts <;> simp [addTailTo]

def addTail (s : Statement) (liminals : List Text) : Statement :=
  ⟨addTailTo liminals s.tokens, addTailTo_ne_nil liminals s.nonempty⟩

theorem flatMap_source_addTailTo (liminals : List Text) {ts : List Token} (h : ts ≠ []) :
    (addTailTo liminals ts).flatMap Token.source =
      ts.flatMap Token.source ++ liminals.flatten := by
  induction ts with
  | nil => exact absurd rfl h
  | cons t ts ih =>
      cases ts with
      | nil => simp [addTailTo]
      | cons u ts => simp [addTailTo, ih]

@[simp] theorem source_addTail (s : Statement) (liminals : List Text) :
    (s.addTail liminals).source = s.source ++ liminals.flatten :=
  flatMap_source_addTailTo liminals s.nonempty

@[simp] theorem addTailTo_nil (ts : List Token) : addTailTo [] ts = ts := by
  fun_induction addTailTo [] ts <;> simp_all [Token.addTail]

@[simp] theorem addTail_nil (s : Statement) : s.addTail [] = s := by
  cases s
  simp [addTail]

end Statement

end FreeForm
