import FreeForm.Lexeme

namespace FreeForm

/-!
# Physical lines

A physical line is its content and its terminator, which is a line feed, a carriage return with a
line feed, or nothing at the end of a source.
-/

namespace Line

/-- The content of a line and its terminator. -/
def split : Text → Text × Text
  | [] => ([], [])
  | ['\n'] => ([], ['\n'])
  | ['\r', '\n'] => ([], ['\r', '\n'])
  | c :: rest => (c :: (split rest).1, (split rest).2)

def body (line : Text) : Text :=
  (split line).1

def terminator (line : Text) : Text :=
  (split line).2

theorem split_append (line : Text) : (split line).1 ++ (split line).2 = line := by
  fun_induction split line <;> simp_all

@[simp] theorem body_append_terminator (line : Text) : body line ++ terminator line = line :=
  split_append line

/-- Whether the first character of a line other than a blank is the directive mark. -/
def isDirective (line : Text) : Bool :=
  (line.dropWhile isBlank).head? == some Lexeme.directiveMark

/-- The content and the terminator of a line, where they are not empty. -/
def verbatim (line : Text) : List Text :=
  [body line, terminator line].filter (!·.isEmpty)

theorem verbatim_flatten (line : Text) : (verbatim line).flatten = line := by
  have flat : ∀ s t : Text, ([s, t].filter (!·.isEmpty)).flatten = s ++ t := by
    intro s t
    cases s <;> cases t <;> simp
  rw [verbatim, flat, body_append_terminator]

end Line

end FreeForm
