import FreeForm.Lexeme.Literal
import FreeForm.Line

namespace FreeForm

/-!
# Scanning the content of a line

The content of a line is read lexeme by lexeme. Nothing crosses a line but the delimiter of a string
that a trailing continuation mark leaves open. Scanning stops in front of a character that starts no
lexeme; up to there the lexemes hold all of the text.
-/

namespace Line

/-- The characters that are lexemes by themselves. -/
def punctuation : Text :=
  ['=', '+', '-', '*', '/', '\\', '(', ')', '[', ']', '\x7b', '\x7d', ',', ':', ';', '%', '&', '~',
    '<', '>', '?', '\x60', '|', '$', '#', '@']

/-- The operators of two characters. The delimiters of an array constructor are not among them, for
a slash beside a parenthesis may as well name the division operator. -/
def pairs : List Text :=
  [[':', ':'], ['=', '>'], ['*', '*'], ['/', '/'], ['=', '='], ['/', '='], ['<', '='], ['>', '=']]

def isQuote (c : Char) : Bool :=
  c == '\'' || c == '"'

def isCommentMark (c : Char) : Bool :=
  c == '!' || c == Lexeme.directiveMark

def punctuationKind (c : Char) : Lexeme.Kind :=
  if c = Lexeme.continuationMark then .continuation
  else if c = ';' then .separator
  else .punctuation

/-- A lexeme read from the front of a text, the rest, and the delimiter of the string that the
lexeme leaves open. -/
structure Piece where
  lexeme : Lexeme
  rest : Text
  opened : Option Char

namespace Piece

def ofKind (kind : Lexeme.Kind) (taken : Text × Text) : Piece :=
  ⟨⟨kind, taken.1⟩, taken.2, none⟩

def ofQuotation (delimiter : Char) (q : Lexeme.Quotation) : Piece :=
  ⟨⟨.string, q.text⟩, q.rest, if q.continued then some delimiter else none⟩

/-- The operator or the single character at the front of a text. -/
def ofPunctuation (c : Char) : Text → Piece
  | [] => ofKind (punctuationKind c) ([c], [])
  | d :: rest =>
      if [c, d] ∈ pairs then ofKind .operator ([c, d], rest)
      else ofKind (punctuationKind c) ([c], d :: rest)

/-- The first lexeme of a text that starts with `c`, if some lexeme starts so. -/
def ofCons? (c : Char) (rest : Text) : Option Piece :=
  if isBlank c then some (ofKind .whitespace (Pattern.many isBlank (c :: rest)))
  else if isQuote c then some (ofQuotation c ((Lexeme.readQuotation c rest).cons c))
  else if Lexeme.isNameStart c then some (ofKind .name (Lexeme.namePattern (c :: rest)))
  else if c.isDigit then some (ofKind .number (Lexeme.numberPattern (c :: rest)))
  else if isCommentMark c then some (ofKind .comment (c :: rest, []))
  else if c = '.' then
    if rest.head?.any Char.isDigit then
      some (ofKind .number (Lexeme.pointNumberPattern (c :: rest)))
    else some (ofKind .dotOperator (Lexeme.dotOperatorPattern (c :: rest)))
  else if c ∈ punctuation then some (ofPunctuation c rest)
  else none

def first? : Text → Option Piece
  | [] => none
  | c :: rest => ofCons? c rest

theorem ofPunctuation_append (c : Char) (rest : Text) :
    (ofPunctuation c rest).lexeme.text ++ (ofPunctuation c rest).rest = c :: rest := by
  cases rest with
  | nil => rfl
  | cons d rest =>
      by_cases h : [c, d] ∈ pairs <;> simp [ofPunctuation, ofKind, h]

theorem ofCons?_append {c : Char} {rest : Text} {p : Piece} (h : ofCons? c rest = some p) :
    p.lexeme.text ++ p.rest = c :: rest := by
  unfold ofCons? at h
  repeat' split at h
  all_goals simp only [Option.some.injEq, reduceCtorEq] at h
  all_goals subst h
  · exact Pattern.lossless_many _ _
  · simp [ofQuotation, Lexeme.Quotation.cons, Lexeme.readQuotation_append]
  · exact Pattern.lossless_many _ _
  · exact Lexeme.lossless_number _
  · simp [ofKind]
  · exact Lexeme.lossless_pointNumber _
  · exact Lexeme.lossless_dotOperator _
  · exact ofPunctuation_append c rest

theorem first?_append {t : Text} {p : Piece} (h : first? t = some p) :
    p.lexeme.text ++ p.rest = t := by
  cases t with
  | nil => simp [first?] at h
  | cons c rest => exact ofCons?_append h

theorem many_taken_ne_nil {p : Char → Bool} {c : Char} (h : p c = true) (rest : Text) :
    (Pattern.many p (c :: rest)).1 ≠ [] := by
  simp [Pattern.many, h]

theorem ofPunctuation_text_ne_nil (c : Char) (rest : Text) :
    (ofPunctuation c rest).lexeme.text ≠ [] := by
  cases rest with
  | nil => simp [ofPunctuation, ofKind]
  | cons d rest => by_cases h : [c, d] ∈ pairs <;> simp [ofPunctuation, ofKind, h]

theorem ofCons?_text_ne_nil {c : Char} {rest : Text} {p : Piece} (h : ofCons? c rest = some p) :
    p.lexeme.text ≠ [] := by
  unfold ofCons? at h
  repeat' split at h
  all_goals simp only [Option.some.injEq, reduceCtorEq] at h
  all_goals subst h
  · exact many_taken_ne_nil ‹_› rest
  · simp [ofQuotation, Lexeme.Quotation.cons]
  · exact many_taken_ne_nil (Lexeme.isNamePart_of_isNameStart ‹_›) rest
  · simp [ofKind, Lexeme.numberPattern, Pattern.seq, Lexeme.digitsPattern, Pattern.many, *]
  · simp [ofKind]
  · simp [ofKind, Lexeme.pointNumberPattern, Pattern.seq, Pattern.lead, *]
  · simp [ofKind, Lexeme.dotOperatorPattern, Pattern.lead, *]
  · exact ofPunctuation_text_ne_nil c rest

theorem first?_text_ne_nil {t : Text} {p : Piece} (h : first? t = some p) :
    p.lexeme.text ≠ [] := by
  cases t with
  | nil => simp [first?] at h
  | cons c rest => exact ofCons?_text_ne_nil h

theorem length_rest_lt {t : Text} {p : Piece} (h : first? t = some p) :
    p.rest.length < t.length := by
  have happ := congrArg List.length (first?_append h)
  have hpos := List.length_pos_iff.2 (first?_text_ne_nil h)
  rw [List.length_append] at happ
  omega

end Piece

/-- Lexemes scanned from a text, the delimiter they leave open, and the text in front of which
scanning stopped. -/
structure Scan where
  lexemes : List Lexeme
  openDelimiter : Option Char
  rest : Text

namespace Scan

/-- Puts lexemes and the delimiter that they leave open in front of a scan. -/
def after (lexemes : List Lexeme) (opened : Option Char) (s : Scan) : Scan :=
  ⟨lexemes ++ s.lexemes, opened <|> s.openDelimiter, s.rest⟩

end Scan

/-- A name for which `rename` has a replacement is replaced word for word. -/
def renameLexeme (rename : Text → Option Text) (l : Lexeme) : Lexeme :=
  if l.kind = .name then { l with text := (rename l.text).getD l.text } else l

/-- Scans a text that does not start inside a string. -/
def scanFresh (rename : Text → Option Text) (t : Text) : Scan :=
  match _h : Piece.first? t with
  | none => ⟨[], none, t⟩
  | some p => (scanFresh rename p.rest).after [renameLexeme rename p.lexeme] p.opened
termination_by t.length
decreasing_by exact Piece.length_rest_lt _h

/-- Whether a text is blank or starts, behind blanks, with a comment. Such a line leaves an open
string open. -/
def isBlankOrComment (t : Text) : Bool :=
  (t.dropWhile isBlank).head?.all isCommentMark

/-- The indentation and the continuation mark in front of a string that goes on, and the text
behind them. Without a mark the indentation belongs to the string. -/
def resumption (t : Text) : List Lexeme × Text :=
  match t.dropWhile isBlank with
  | [] => ([], t)
  | c :: rest =>
      if c = Lexeme.continuationMark then
        ([⟨.whitespace, t.takeWhile isBlank⟩, ⟨.continuation, [c]⟩].filter (!·.text.isEmpty), rest)
      else ([], t)

/-- Scans a text that starts inside a string with the given delimiter. -/
def scanCarried (rename : Text → Option Text) (delimiter : Char) (t : Text) : Scan :=
  if isBlankOrComment t then
    { scanFresh rename t with openDelimiter := some delimiter }
  else
    let q := Lexeme.readQuotation delimiter (resumption t).2
    let p := Piece.ofQuotation delimiter q
    (scanFresh rename p.rest).after
      ((resumption t).1 ++ [p.lexeme].filter (!·.text.isEmpty)) p.opened

/-- Scans the content of a line, given the delimiter of the string it starts in, if any. -/
def scan (rename : Text → Option Text) (carried : Option Char) (t : Text) : Scan :=
  match carried with
  | none => scanFresh rename t
  | some delimiter => scanCarried rename delimiter t

@[simp] theorem lexemes_after (ls : List Lexeme) (opened : Option Char) (s : Scan) :
    (s.after ls opened).lexemes = ls ++ s.lexemes := rfl

theorem length_lexemes_scanFresh_le (rename : Text → Option Text) (t : Text) :
    (scanFresh rename t).lexemes.length ≤ t.length := by
  fun_induction scanFresh rename t with
  | case1 => exact Nat.zero_le _
  | case2 t p h ih =>
      have hlt := Piece.length_rest_lt h
      simp only [lexemes_after, List.length_append, List.length_singleton]
      omega

theorem length_resumption_le (t : Text) :
    (resumption t).1.length + (resumption t).2.length ≤ t.length := by
  have ht := congrArg List.length (List.takeWhile_append_dropWhile (p := isBlank) (l := t))
  rw [List.length_append] at ht
  unfold resumption
  split
  · exact Nat.le_of_eq (Nat.zero_add _)
  · rename_i c rest hdrop
    rw [hdrop, List.length_cons] at ht
    split
    · cases hw : t.takeWhile isBlank with
      | nil =>
          simp only [hw, List.length_nil] at ht
          simp only [List.filter, List.isEmpty_nil, List.isEmpty_cons, Bool.not_true,
            Bool.not_false, List.length_singleton]
          omega
      | cons b bs =>
          simp only [hw, List.length_cons] at ht
          simp only [List.filter, List.isEmpty_cons, Bool.not_false, List.length_cons,
            List.length_nil]
          omega
    · exact Nat.le_of_eq (Nat.zero_add _)

/-- A scan finds no more lexemes than there are characters. -/
theorem length_lexemes_scan_le (rename : Text → Option Text) (carried : Option Char) (t : Text) :
    (scan rename carried t).lexemes.length ≤ t.length := by
  unfold scan
  split
  · exact length_lexemes_scanFresh_le rename t
  · rename_i delimiter
    unfold scanCarried
    split
    · exact length_lexemes_scanFresh_le rename t
    · have hres := length_resumption_le t
      have hq := congrArg List.length
        (Lexeme.readQuotation_append delimiter (resumption t).2)
      have hrest := length_lexemes_scanFresh_le rename
        (Lexeme.readQuotation delimiter (resumption t).2).rest
      rw [List.length_append] at hq
      simp only [lexemes_after, List.length_append, Piece.ofQuotation]
      cases htext : (Lexeme.readQuotation delimiter (resumption t).2).text with
      | nil =>
          simp only [htext, List.length_nil] at hq
          simp only [List.filter, List.isEmpty_nil, Bool.not_true, List.length_nil]
          omega
      | cons c cs =>
          simp only [htext, List.length_cons] at hq
          simp only [List.filter, List.isEmpty_cons, Bool.not_false, List.length_singleton]
          omega

end Line

end FreeForm
