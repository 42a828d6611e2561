import FreeForm.Document
import FreeForm.Lexer
import FreeForm.Proofs.Draft.Expansion

namespace FreeForm

/-!
# The parts of a document

What a document prints when macros are expanded and split tokens joined: the values of its tokens,
with the liminal texts around them, in order. Whatever a lexer does it keeps the parts in a row: a
draft grows at its end, and a statement has the parts of the draft that it was.
-/

/-- How the value of a token came to be. -/
inductive Origin where
  /-- It stands in the source. -/
  | written
  /-- It was put together from halves on two lines. -/
  | joined
  /-- It was taken from a macro body. -/
  | expanded
  deriving DecidableEq, Repr

/-- A token as it is printed. -/
structure Word where
  value : Text
  origin : Origin
  deriving DecidableEq, Repr

inductive Part where
  | token (w : Word)
  | liminal (text : Text)
  deriving DecidableEq, Repr

def Part.text : Part → Text
  | .token w => w.value
  | .liminal text => text

/-- Liminal texts as parts. -/
def Part.ofLiminals (liminals : List Text) : List Part :=
  liminals.map .liminal

@[simp] theorem Part.ofLiminals_append (ls ms : List Text) :
    ofLiminals (ls ++ ms) = ofLiminals ls ++ ofLiminals ms := by
  simp [ofLiminals]

@[simp] theorem Part.ofLiminals_nil : ofLiminals [] = [] := rfl

@[simp] theorem Part.flatMap_text_ofLiminals (ls : List Text) :
    (ofLiminals ls).flatMap text = ls.flatten := by
  induction ls with
  | nil => rfl
  | cons l ls ih => exact congrArg (l ++ ·) ih

namespace Token

def origin (t : Token) : Origin :=
  if t.isExpanded then .expanded
  else if t.split.isSome then .joined
  else .written

theorem origin_eq_expanded {t : Token} : t.origin = .expanded ↔ t.isExpanded = true := by
  unfold origin
  cases t.isExpanded <;> simp
  split <;> simp

def word (t : Token) : Word :=
  ⟨t.value, t.origin⟩

@[simp] theorem value_word (t : Token) : t.word.value = t.value := rfl

@[simp] theorem map_value_map_word (ts : List Token) :
    (ts.map word).map Word.value = ts.map value := by
  simp [Function.comp_def]

@[simp] theorem word_addTail (t : Token) (liminals : List Text) :
    (t.addTail liminals).word = t.word := rfl

@[simp] theorem word_addHead (t : Token) (liminals : List Text) :
    (t.addHead liminals).word = t.word := rfl

@[simp] theorem word_ofLexeme (l : Lexeme) : (ofLexeme l).word = ⟨l.text, .written⟩ := rfl

def parts (t : Token) : List Part :=
  Part.ofLiminals t.head ++ .token t.word :: Part.ofLiminals t.tail

@[simp] theorem parts_addTail (t : Token) (liminals : List Text) :
    (t.addTail liminals).parts = t.parts ++ Part.ofLiminals liminals := by
  rw [parts, word_addTail]
  simp [parts, addTail]

@[simp] theorem parts_addHead (t : Token) (liminals : List Text) :
    (t.addHead liminals).parts = Part.ofLiminals liminals ++ t.parts := by
  rw [parts, word_addHead]
  simp [parts, addHead]

theorem flatMap_text_parts (t : Token) : t.parts.flatMap Part.text = t.expanded := by
  simp [parts, expanded, Part.text, word]

end Token

namespace Statement

def parts (s : Statement) : List Part :=
  s.tokens.flatMap Token.parts

theorem flatMap_parts_addTailTo (liminals : List Text) {ts : List Token} (h : ts ≠ []) :
    (addTailTo liminals ts).flatMap Token.parts =
      ts.flatMap Token.parts ++ Part.ofLiminals liminals := by
  induction ts with
  | nil => exact absurd rfl h
  | cons t ts ih =>
      cases ts with
      | nil => simp [addTailTo]
      | cons u ts => simp [addTailTo, ih]

@[simp] theorem parts_addTail (s : Statement) (liminals : List Text) :
    (s.addTail liminals).parts = s.parts ++ Part.ofLiminals liminals :=
  flatMap_parts_addTailTo liminals s.nonempty

@[simp] theorem values_addTail (s : Statement) (liminals : List Text) :
    (s.addTail liminals).values = s.values := by
  have hbare := congrArg (List.map Token.value) (bare_addTail s liminals)
  simpa [bare, values, List.map_map, Function.comp_def, Token.bare] using hbare

end Statement

namespace Draft

def parts (d : Draft) : List Part :=
  d.tokens.reverse.flatMap Token.parts ++ Part.ofLiminals d.liminals

@[simp] theorem parts_ofLiminals (liminals : List Text) :
    (ofLiminals liminals).parts = Part.ofLiminals liminals := rfl

@[simp] theorem parts_addLiminals (d : Draft) (liminals : List Text) :
    (d.addLiminals liminals).parts = d.parts ++ Part.ofLiminals liminals := by
  simp [parts, addLiminals]

@[simp] theorem parts_addToken (d : Draft) (t : Token) :
    (d.addToken t).parts = d.parts ++ t.parts := by
  unfold addToken
  split <;> simp [parts, *]

theorem parts_of_statement? {d : Draft} {s : Statement} (h : d.statement? = some s) :
    s.parts = d.parts := by
  unfold statement? at h
  split at h
  · cases h
  · rename_i newest older hd
    unfold Statement.ofTokens? at h
    split at h
    · cases h
    · rename_i t ts hts
      cases h
      simp only [Statement.parts]
      rw [← hts]
      simp [parts, hd]

theorem values_of_statement? {d : Draft} {s : Statement} (h : d.statement? = some s) :
    s.values = (d.tokens.map Token.value).reverse := by
  unfold statement? at h
  split at h
  · cases h
  · rename_i newest older hd
    unfold Statement.ofTokens? at h
    split at h
    · cases h
    · rename_i t ts hts
      cases h
      simp only [Statement.values]
      rw [← hts]
      simp [hd, Token.addTail]

end Draft

namespace Phase

def parts : Phase → List Part
  | .building d => d.parts
  | .complete s ahead => s.parts ++ Part.ofLiminals ahead

@[simp] theorem parts_addLiminals (phase : Phase) (liminals : List Text) :
    (phase.addLiminals liminals).parts = phase.parts ++ Part.ofLiminals liminals := by
  cases phase <;> simp [parts, addLiminals]

end Phase

namespace Document

def parts (d : Document) : List Part :=
  d.statements.flatMap Statement.parts ++ Part.ofLiminals d.trailing

/-- The parts of a document are what its expanded text is put together from. -/
theorem flatMap_text_parts (d : Document) : d.parts.flatMap Part.text = d.expanded := by
  have hstatement : ∀ s : Statement, s.parts.flatMap Part.text = s.expanded := by
    intro s
    simp [Statement.parts, Statement.expanded, List.flatMap_assoc, Token.flatMap_text_parts]
  simp [parts, expanded, List.flatMap_assoc, hstatement]

end Document

end FreeForm
