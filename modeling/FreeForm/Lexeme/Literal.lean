import FreeForm.Lexeme
import FreeForm.Pattern
import FreeForm.Unicode.Alphabetic
import FreeForm.Unicode.Numeric

namespace FreeForm

/-!
# Names, numbers, dotted operators and strings

The shapes of the lexemes that span several characters. A decimal point belongs to a number unless
it opens a dotted operator, so `1.eq.2` compares two numbers. A string runs to its delimiter, a
doubled delimiter standing for itself, or stops in front of a trailing continuation mark.
-/

namespace Lexeme

/-- The characters a name may start with. -/
def isNameStart (c : Char) : Bool :=
  Unicode.isAlphabetic c || c == '_'

/-- The characters a name goes on with. -/
def isNamePart (c : Char) : Bool :=
  Unicode.isAlphabetic c || Unicode.isNumeric c || c == '_'

theorem isNamePart_of_isNameStart {c : Char} (h : isNameStart c = true) : isNamePart c = true := by
  simp only [isNameStart, Bool.or_eq_true] at h
  rcases h with h | h <;> simp [isNamePart, h]

def namePattern : Pattern :=
  .many isNamePart

/-- Decimal digits, of ASCII only. -/
def digitsPattern : Pattern :=
  .many Char.isDigit

/-- The letters of a dotted operator and the point that ends it, if there is one. -/
def operatorTailPattern : Pattern :=
  .seq (.many Unicode.isAlphabetic) (.lead (· == '.') .nothing)

/-- Whether a text starts with a point, letters and a second point. -/
def opensDotOperator : Text → Bool
  | '.' :: rest =>
      !(rest.takeWhile Unicode.isAlphabetic).isEmpty &&
        (rest.dropWhile Unicode.isAlphabetic).head? == some '.'
  | _ => false

/-- A decimal point and its digits, unless the point opens a dotted operator. -/
def fractionPattern : Pattern := fun t =>
  if opensDotOperator t then Pattern.nothing t else Pattern.lead (· == '.') digitsPattern t

def isExponentLetter (c : Char) : Bool :=
  c == 'e' || c == 'E' || c == 'd' || c == 'D'

def isSign (c : Char) : Bool :=
  c == '+' || c == '-'

/-- An exponent letter, with a sign and digits if there are any. -/
def exponentPattern : Pattern :=
  .lead isExponentLetter (.seq (.lead isSign .nothing) digitsPattern)

/-- A kind is a name or digits. -/
def kindPattern : Pattern := fun t =>
  if t.head?.any Unicode.isAlphabetic then namePattern t else digitsPattern t

/-- What may follow the digits of a number: its exponent and, behind an underscore, its kind. -/
def numberTailPattern : Pattern :=
  .seq exponentPattern (.lead (· == '_') kindPattern)

def numberPattern : Pattern :=
  .seq digitsPattern (.seq fractionPattern numberTailPattern)

/-- A number without an integer part. -/
def pointNumberPattern : Pattern :=
  .seq (.lead (· == '.') digitsPattern) numberTailPattern

/-- A point alone, or a dotted operator. -/
def dotOperatorPattern : Pattern :=
  .lead (· == '.') operatorTailPattern

theorem lossless_fraction : fractionPattern.Lossless := by
  intro t
  unfold fractionPattern
  split
  · exact Pattern.lossless_nothing t
  · exact (Pattern.lossless_many _).lead t

theorem lossless_kind : kindPattern.Lossless := by
  intro t
  unfold kindPattern
  split
  · exact Pattern.lossless_many _ t
  · exact Pattern.lossless_many _ t

theorem lossless_numberTail : numberTailPattern.Lossless :=
  (Pattern.lossless_nothing.lead.seq (Pattern.lossless_many _)).lead.seq lossless_kind.lead

theorem lossless_number : numberPattern.Lossless :=
  (Pattern.lossless_many _).seq (lossless_fraction.seq lossless_numberTail)

theorem lossless_pointNumber : pointNumberPattern.Lossless :=
  (Pattern.lossless_many _).lead.seq lossless_numberTail

theorem lossless_dotOperator : dotOperatorPattern.Lossless :=
  ((Pattern.lossless_many _).seq Pattern.lossless_nothing.lead).lead

/-- String content read from a line, the text behind it, and whether the string goes on on the next
line. -/
structure Quotation where
  text : Text
  rest : Text
  continued : Bool

/-- Puts a character in front of some string content. -/
def Quotation.cons (c : Char) (q : Quotation) : Quotation :=
  { q with text := c :: q.text }

/-- Reads string content up to the delimiter that closes it, a continuation mark with nothing but
blanks behind it, or the end of the line. -/
def readQuotation (delimiter : Char) : Text → Quotation
  | [] => ⟨[], [], false⟩
  | c :: rest =>
      if c = continuationMark ∧ rest.all isBlank then ⟨[], c :: rest, true⟩
      else if c = delimiter then
        match rest with
        | [] => ⟨[c], [], false⟩
        | d :: rest =>
            if d = delimiter then ((readQuotation delimiter rest).cons d).cons c
            else ⟨[c], d :: rest, false⟩
      else (readQuotation delimiter rest).cons c

theorem readQuotation_append (delimiter : Char) (t : Text) :
    (readQuotation delimiter t).text ++ (readQuotation delimiter t).rest = t := by
  fun_induction readQuotation delimiter t <;> simp_all [Quotation.cons]

/-- A string stops short of its delimiter only at a trailing continuation mark. -/
theorem readQuotation_rest_of_continued {delimiter : Char} {t : Text}
    (h : (readQuotation delimiter t).continued = true) :
    ∃ blanks, (readQuotation delimiter t).rest = continuationMark :: blanks ∧
      blanks.all isBlank = true := by
  fun_induction readQuotation delimiter t <;> simp_all [Quotation.cons]

end Lexeme

end FreeForm
