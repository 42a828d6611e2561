import FreeForm.Proofs.Scan.Division

namespace FreeForm

/-!
# The characters of names, numbers and operators

No character of a name, a number or an operator is a blank, a mark, a separator or a line end. So
where the text behind a division of such a lexeme can be read at all, it starts with a token.
-/

open Lexeme

namespace Pattern

/-- Patterns that take certain characters only. -/
def Of (p : Char → Bool) (f : Pattern) : Prop :=
  ∀ t, ∀ c ∈ (f t).1, p c = true

section Of

variable {p q : Char → Bool}

theorem of_nothing : Of p nothing := fun _ => List.forall_mem_nil _

theorem of_many (h : ∀ c, q c = true → p c = true) : Of p (many q) := by
  intro t c hc
  apply h
  exact List.all_eq_true.mp List.all_takeWhile c hc

theorem Of.seq {f g : Pattern} (hf : Of p f) (hg : Of p g) : Of p (seq f g) := by
  intro t c hc
  rcases List.mem_append.mp hc with hc | hc
  · exact hf t c hc
  · exact hg _ c hc

theorem Of.lead {f : Pattern} (hf : Of p f) (h : ∀ c, q c = true → p c = true) :
    Of p (lead q f) := by
  intro t c hc
  cases t with
  | nil => cases hc
  | cons d t =>
      by_cases hd : q d = true
      · simp only [Pattern.lead, hd, if_true] at hc
        rcases List.mem_cons.mp hc with rfl | hc
        · exact h c hd
        · exact hf t c hc
      · simp [Pattern.lead, hd] at hc

end Of

end Pattern

namespace Line

/-- The characters that names, numbers and operators are made of. -/
def isWordy (c : Char) : Bool :=
  isNamePart c || c ∈ ['.', '+', '-', ':', '=', '>', '*', '/', '<']

theorem isWordy_of_isNamePart {c : Char} (h : isNamePart c = true) : isWordy c = true := by
  simp [isWordy, h]

theorem isWordy_of_isAlphabetic {c : Char} (h : Unicode.isAlphabetic c = true) :
    isWordy c = true :=
  isWordy_of_isNamePart (by simp [isNamePart, h])

theorem isWordy_of_isDigit {c : Char} (h : c.isDigit = true) : isWordy c = true :=
  isWordy_of_isNamePart (by simp [isNamePart, Unicode.isNumeric_of_isDigit h])

theorem isWordy_of_eq {c d : Char} (hd : isWordy d = true) (h : (c == d) = true) :
    isWordy c = true := by
  rw [beq_iff_eq.mp h]
  exact hd

theorem of_digits : digitsPattern.Of isWordy :=
  Pattern.of_many fun _ => isWordy_of_isDigit

theorem of_name : namePattern.Of isWordy :=
  Pattern.of_many fun _ => isWordy_of_isNamePart

theorem of_kind : kindPattern.Of isWordy := by
  intro t
  unfold kindPattern
  split
  · exact of_name t
  · exact of_digits t

theorem of_numberTail : numberTailPattern.Of isWordy := by
  have hletter : ∀ c, isExponentLetter c = true → isWordy c = true := by
    intro c hc
    simp only [isExponentLetter, Bool.or_eq_true, beq_iff_eq] at hc
    rcases hc with ((rfl | rfl) | rfl) | rfl <;> decide
  have hsign : ∀ c, isSign c = true → isWordy c = true := by
    intro c hc
    simp only [isSign, Bool.or_eq_true, beq_iff_eq] at hc
    rcases hc with rfl | rfl <;> decide
  have hexponent := ((Pattern.of_nothing.lead hsign).seq of_digits).lead hletter
  exact hexponent.seq (of_kind.lead fun _ => isWordy_of_eq (by decide))

theorem of_point_digits : Pattern.Of isWordy (.lead (· == '.') digitsPattern) :=
  of_digits.lead fun _ => isWordy_of_eq (by decide)

theorem of_fraction : fractionPattern.Of isWordy := by
  intro t
  unfold fractionPattern
  split
  · exact Pattern.of_nothing t
  · exact of_point_digits t

theorem of_number : numberPattern.Of isWordy :=
  of_digits.seq (of_fraction.seq of_numberTail)

theorem of_pointNumber : pointNumberPattern.Of isWordy :=
  of_point_digits.seq of_numberTail

theorem of_dotOperator : dotOperatorPattern.Of isWordy := by
  have hpoint : ∀ c, (c == '.') = true → isWordy c = true := fun _ => isWordy_of_eq (by decide)
  have hletters : Pattern.Of isWordy (.many Unicode.isAlphabetic) :=
    Pattern.of_many fun _ => isWordy_of_isAlphabetic
  exact (hletters.seq (Pattern.of_nothing.lead hpoint)).lead hpoint

theorem isWordy_of_mem_pair {c d : Char} (h : [c, d] ∈ pairs) :
    ∀ e ∈ [c, d], isWordy e = true := by
  have hall : pairs.all (·.all isWordy) = true := by decide
  exact List.all_eq_true.mp (List.all_eq_true.mp hall [c, d] h)

/-- The characters of a lexeme that can be divided. -/
theorem isWordy_of_mem {t : Text} {p : Piece} (hkind : IsDivisible p.lexeme.kind)
    (h : Piece.first? t = some p) : ∀ c ∈ p.lexeme.text, isWordy c = true := by
  cases t with
  | nil => cases h
  | cons c rest =>
      simp only [Piece.first?, Piece.ofCons?] at h
      repeat' split at h
      all_goals simp only [Option.some.injEq, reduceCtorEq] at h
      all_goals subst h
      · simp [Piece.ofKind, IsDivisible] at hkind
      · simp [Piece.ofQuotation, IsDivisible] at hkind
      · exact of_name _
      · exact of_number _
      · simp [Piece.ofKind, IsDivisible] at hkind
      · exact of_pointNumber _
      · exact of_dotOperator _
      · cases rest with
        | nil => exact absurd hkind (not_isDivisible_punctuationKind c)
        | cons d rest =>
            by_cases hpair : [c, d] ∈ pairs
            · simp only [Piece.ofPunctuation, if_pos hpair]
              exact isWordy_of_mem_pair hpair
            · simp only [Piece.ofPunctuation, if_neg hpair] at hkind
              exact absurd hkind (not_isDivisible_punctuationKind c)

theorem Piece.role_of_ofPunctuation {c : Char} (hc : isWordy c = true) (rest : Text) :
    (Piece.ofPunctuation c rest).lexeme.role = .semantic := by
  have hplain : (punctuationKind c).role = .semantic := by
    have hmark : c ≠ continuationMark := by
      rintro rfl
      cases hc
    have hseparator : c ≠ ';' := by
      rintro rfl
      cases hc
    rw [punctuationKind, if_neg hmark, if_neg hseparator]
    rfl
  cases rest with
  | nil => exact hplain
  | cons d rest =>
      by_cases hpair : [c, d] ∈ pairs
      · simp only [Piece.ofPunctuation, if_pos hpair]
        rfl
      · simp only [Piece.ofPunctuation, if_neg hpair]
        exact hplain

/-- What starts with such a character is a token. -/
theorem role_of_first? {c : Char} (hc : isWordy c = true) {t : Text} {p : Piece}
    (h : Piece.first? (c :: t) = some p) : p.lexeme.role = .semantic := by
  simp only [Piece.first?, Piece.ofCons?] at h
  repeat' split at h
  all_goals simp only [Option.some.injEq, reduceCtorEq] at h
  all_goals subst h
  · rename_i hblank
    rcases isBlank_iff.mp hblank with rfl | rfl <;> cases hc
  · rfl
  · rfl
  · rfl
  · rename_i hmark
    simp only [isCommentMark, directiveMark, Bool.or_eq_true, beq_iff_eq] at hmark
    rcases hmark with rfl | rfl <;> cases hc
  · rfl
  · rfl
  · exact Piece.role_of_ofPunctuation hc t

end Line

end FreeForm
