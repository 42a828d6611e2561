import FreeForm.Lexeme
import FreeForm.Unicode.CaseFolding

namespace FreeForm

/-!
# Tokens

A token is a semantic lexeme with the liminal text around it. It remembers how it was spelled, across
a line continuation or as the invocation of a macro, so that the source can be rebuilt; it is
compared by its value alone, without regard to case.
-/

/-- Where the value of a token was written. -/
inductive Provenance where
  /-- In the source itself. -/
  | written
  /-- First in the body of the macro that the source names. -/
  | invocation (name : Text)
  /-- Further on in a macro body. -/
  | replacement
  deriving DecidableEq, Repr

structure Token where
  value : Text
  kind : Lexeme.Kind
  head : List Text := []
  tail : List Text := []
  split : Option Text := none
  provenance : Provenance := .written
  deriving DecidableEq, Repr

namespace Token

def ofLexeme (l : Lexeme) : Token :=
  { value := l.text, kind := l.kind }

/-- The tokens that replace an invocation of the macro `name`. Only the first of them carries the
name. -/
def expansion (name : Text) : List Lexeme → List Token
  | [] => []
  | l :: ls =>
      { ofLexeme l with provenance := .invocation name } ::
        ls.map fun m => { ofLexeme m with provenance := .replacement }

/-- The macro whose expansion starts with this token. -/
def macroName? (t : Token) : Option Text :=
  match t.provenance with
  | .invocation name => some name
  | _ => none

/-- Whether the token was written in a macro body. -/
def isExpanded (t : Token) : Bool :=
  t.provenance != .written

/-- The text that the token was written as, macros apart. -/
def spelling (t : Token) : Text :=
  t.split.getD t.value

/-- The text that the token stands for in the source. An expansion is spelled as its invocation. -/
def sourceText (t : Token) : Text :=
  match t.provenance with
  | .written => t.spelling
  | .invocation name => name
  | .replacement => []

/-- The token in the source, with the liminal text around it. -/
def source (t : Token) : Text :=
  t.head.flatten ++ t.sourceText ++ t.tail.flatten

/-- The token with its macro expanded and its parts joined, with the liminal text around it. -/
def expanded (t : Token) : Text :=
  t.head.flatten ++ t.value ++ t.tail.flatten

def addTail (t : Token) (liminals : List Text) : Token :=
  { t with tail := t.tail ++ liminals }

def addHead (t : Token) (liminals : List Text) : Token :=
  { t with head := liminals ++ t.head }

/-- Whether the token reads the same as a text, case apart. -/
def reads (t : Token) (s : Text) : Bool :=
  Unicode.foldCase t.value == Unicode.foldCase s

/-- Whether two tokens are the same, case and decoration apart. -/
def same (t u : Token) : Bool :=
  t.reads u.value

@[simp] theorem source_addTail (t : Token) (liminals : List Text) :
    (t.addTail liminals).source = t.source ++ liminals.flatten := by
  simp [source, addTail, sourceText, spelling]

@[simp] theorem source_addHead (t : Token) (liminals : List Text) :
    (t.addHead liminals).source = liminals.flatten ++ t.source := by
  simp [source, addHead, sourceText, spelling]

@[simp] theorem source_ofLexeme (l : Lexeme) : (ofLexeme l).source = l.text := by
  simp [source, ofLexeme, sourceText, spelling]

/-- An expansion is spelled as its invocation. -/
theorem source_expansion (name : Text) {body : List Lexeme} (h : body ≠ []) :
    (expansion name body).flatMap source = name := by
  cases body with
  | nil => exact absurd rfl h
  | cons l ls =>
      simp [expansion, List.flatMap_map, source, sourceText, ofLexeme]

theorem same_refl (t : Token) : t.same t = true := by
  simp [same, reads]

theorem same_comm (t u : Token) : t.same u = u.same t := by
  simp [same, reads, Bool.beq_comm]

theorem same_trans {t u v : Token} (htu : t.same u = true) (huv : u.same v = true) :
    t.same v = true := by
  simp only [same, reads, beq_iff_eq] at htu huv ⊢
  rw [htu, huv]

end Token

end FreeForm
