import FreeForm.Text

namespace FreeForm

/-!
# Patterns

A pattern takes as much as it can from the front of a text and leaves the rest. Patterns are built
from runs of characters, from optional characters and by sequence, and none of these loses text.
-/

/-- What is taken from the front of a text, and the rest. -/
abbrev Pattern := Text → Text × Text

namespace Pattern

/-- What is taken and what is left make up the text. -/
def Lossless (f : Pattern) : Prop :=
  ∀ t, (f t).1 ++ (f t).2 = t

def nothing : Pattern := fun t => ([], t)

/-- Takes the longest run of characters that satisfy `p`. -/
def many (p : Char → Bool) : Pattern := fun t => (t.takeWhile p, t.dropWhile p)

def seq (f g : Pattern) : Pattern := fun t => ((f t).1 ++ (g (f t).2).1, (g (f t).2).2)

/-- Takes one character that satisfies `p` and goes on with `f`; without such a character it takes
nothing. -/
def lead (p : Char → Bool) (f : Pattern) : Pattern
  | [] => ([], [])
  | c :: rest => if p c then (c :: (f rest).1, (f rest).2) else ([], c :: rest)

theorem lossless_nothing : Lossless nothing := fun _ => rfl

theorem lossless_many (p : Char → Bool) : Lossless (many p) :=
  fun _ => List.takeWhile_append_dropWhile

theorem Lossless.seq {f g : Pattern} (hf : Lossless f) (hg : Lossless g) :
    Lossless (seq f g) := by
  intro t
  simp only [Pattern.seq, List.append_assoc]
  rw [hg, hf]

theorem Lossless.lead {p : Char → Bool} {f : Pattern} (hf : Lossless f) :
    Lossless (lead p f) := by
  intro t
  cases t with
  | nil => rfl
  | cons c rest =>
      by_cases h : p c
      · simp [Pattern.lead, h, hf rest]
      · simp [Pattern.lead, h]

end Pattern

end FreeForm
