import FreeForm.Proofs.Scan.Lookahead
import FreeForm.Proofs.Scan.Quotation

namespace FreeForm

/-!
# Lexemes in front of another text

A lexeme is read again in front of any text that starts with the same character, and each front of a
name, a number or an operator is a lexeme of its own in front of a continuation mark. So a line that
is divided within such a lexeme scans as before up to there, unless the lexeme is a dotted operator
whose point would now end the digits in front of it.
-/

open Lexeme

namespace Lexeme

theorem Quotation.exists_of_cons {c : Char} {p : Quotation} {t r : Text} {o : Bool}
    (h : p.cons c = ⟨t, r, o⟩) : ∃ u, t = c :: u ∧ p = ⟨u, r, o⟩ := by
  obtain ⟨u, r', o'⟩ := p
  cases h
  exact ⟨u, rfl, rfl⟩

theorem behind_of_readQuotation {q : Char} {x t r : Text}
    (h : readQuotation q x = ⟨t, r, false⟩) (hr : r ≠ []) :
    ∃ w, Within q w ∧ t = w ++ [q] ∧ r.head? ≠ some q := by
  fun_induction readQuotation q x generalizing t with
  | case1 =>
      cases h
      exact absurd rfl hr
  | case2 => cases h
  | case3 =>
      cases h
      exact absurd rfl hr
  | case4 rest hmark ih =>
      obtain ⟨u, rfl, hu⟩ := Quotation.exists_of_cons h
      obtain ⟨v, rfl, hv⟩ := Quotation.exists_of_cons hu
      obtain ⟨w, hw, rfl, hhead⟩ := ih hv
      exact ⟨q :: q :: w, .doubled hw, rfl, hhead⟩
  | case5 d rest hd hmark =>
      cases h
      exact ⟨[], .nil, rfl, fun heq => hd (Option.some.inj heq)⟩
  | case6 c rest hmark hc ih =>
      obtain ⟨u, rfl, hu⟩ := Quotation.exists_of_cons h
      obtain ⟨w, hw, rfl, hhead⟩ := ih hu
      exact ⟨c :: w, .plain hc hw, rfl, hhead⟩

end Lexeme

namespace Line

theorem Piece.ofKind_eq_iff {kind k : Kind} {taken : Text × Text} {t r : Text} {o : Option Char} :
    Piece.ofKind kind taken = ⟨⟨k, t⟩, r, o⟩ ↔ kind = k ∧ taken = (t, r) ∧ o = none := by
  obtain ⟨x, y⟩ := taken
  simp [Piece.ofKind, eq_comm, and_assoc]

theorem Piece.ofKind_again {f : Pattern} (hf : f.Local) {kind k : Kind} {t r s : Text}
    {o : Option Char} (h : Piece.ofKind kind (f (t ++ r)) = ⟨⟨k, t⟩, r, o⟩) (hs : Replaces s r) :
    Piece.ofKind kind (f (t ++ s)) = ⟨⟨k, t⟩, s, o⟩ := by
  obtain ⟨hk, htaken, ho⟩ := Piece.ofKind_eq_iff.mp h
  exact Piece.ofKind_eq_iff.mpr ⟨hk, hf.again htaken hs, ho⟩

theorem Piece.ofQuotation_again {q : Char} (hq : q = '\'' ∨ q = '"') {t r s : Text} {k : Kind}
    (h : Piece.ofQuotation q ((readQuotation q (t ++ r)).cons q) = ⟨⟨k, q :: t⟩, r, none⟩)
    (hr : r ≠ []) (hs : s.head? = r.head?) :
    Piece.ofQuotation q ((readQuotation q (t ++ s)).cons q) = ⟨⟨k, q :: t⟩, s, none⟩ := by
  have hform : ∀ p : Quotation, Piece.ofQuotation q (p.cons q) = ⟨⟨k, q :: t⟩, r, none⟩ →
      k = .string ∧ p = ⟨t, r, false⟩ := by
    rintro ⟨text, rest, continued⟩ hp
    cases continued with
    | true => cases hp
    | false =>
        cases hp
        exact ⟨rfl, rfl⟩
  obtain ⟨rfl, hread⟩ := hform _ h
  obtain ⟨w, hw, rfl, hhead⟩ := behind_of_readQuotation hread hr
  rw [List.append_assoc, List.singleton_append, readQuotation_behind hq hw (hs ▸ hhead)]
  rfl

theorem Piece.ofPunctuation_again {c : Char} {t r s : Text} {k : Kind} {o : Option Char}
    (h : Piece.ofPunctuation c (t ++ r) = ⟨⟨k, c :: t⟩, r, o⟩) (hr : r ≠ [])
    (hs : s.head? = r.head?) : Piece.ofPunctuation c (t ++ s) = ⟨⟨k, c :: t⟩, s, o⟩ := by
  cases t with
  | nil =>
      obtain ⟨d, r, rfl⟩ := List.exists_cons_of_ne_nil hr
      obtain ⟨s, rfl⟩ := List.head?_eq_some_iff.mp hs
      by_cases hpair : [c, d] ∈ pairs
      · simp [Piece.ofPunctuation, hpair, Piece.ofKind] at h
      · simp only [List.nil_append, Piece.ofPunctuation, if_neg hpair, Piece.ofKind_eq_iff] at h ⊢
        exact ⟨h.1, trivial, h.2.2⟩
  | cons d t =>
      by_cases hpair : [c, d] ∈ pairs
      · simp only [List.cons_append, Piece.ofPunctuation, if_pos hpair, Piece.ofKind_eq_iff,
          Prod.mk.injEq, List.cons.injEq, true_and] at h ⊢
        obtain ⟨hk, ⟨hnil, _⟩, ho⟩ := h
        simp [← hnil, hk, ho]
      · simp [Piece.ofPunctuation, hpair, Piece.ofKind] at h

/-- A lexeme is read again in front of any text that starts with the same character, unless dotted
operators are opened otherwise. -/
theorem first?_again {l : Lexeme} {r s : Text}
    (h : Piece.first? (l.text ++ r) = some ⟨l, r, none⟩) (hr : r ≠ []) (hs : s.head? = r.head?)
    (hopens : (∀ c ∈ l.text, c.isDigit = true) → opensDotOperator r = true →
      opensDotOperator s = true)
    (hopened : ∀ z ≠ [], opensDotOperator (z ++ s) = true → opensDotOperator (z ++ r) = true) :
    Piece.first? (l.text ++ s) = some ⟨l, s, none⟩ := by
  have hreplaces : Replaces s r := .inl hs
  obtain ⟨k, t⟩ := l
  cases t with
  | nil => exact absurd rfl (Piece.first?_text_ne_nil h)
  | cons c t =>
      have hnext : (t ++ s).head? = (t ++ r).head? := by
        cases t with
        | nil => exact hs
        | cons d t => rfl
      simp only [List.cons_append, Piece.first?, Piece.ofCons?, hnext] at h ⊢
      repeat' split at h
      all_goals simp only [Option.some.injEq, reduceCtorEq] at h
      all_goals simp only [*, if_true, if_false, Bool.false_eq_true, Option.some.injEq]
      · exact Piece.ofKind_again (t := c :: t) (Pattern.local_many (by decide)) h hreplaces
      · rename_i hquote
        have hq : c = '\'' ∨ c = '"' := by simpa [isQuote] using hquote
        exact Piece.ofQuotation_again hq h hr hs
      · exact Piece.ofKind_again (t := c :: t) local_name h hreplaces
      · obtain ⟨hk, htaken, ho⟩ := Piece.ofKind_eq_iff.mp h
        exact Piece.ofKind_eq_iff.mpr
          ⟨hk, number_again (t := c :: t) htaken hs hopens hopened, ho⟩
      · -- a comment leaves nothing
        obtain ⟨_, htaken, _⟩ := Piece.ofKind_eq_iff.mp h
        exact absurd (congrArg Prod.snd htaken).symm hr
      · obtain rfl : c = '.' := ‹c = '.'›
        exact congrArg some (Piece.ofKind_again (t := '.' :: t) local_pointNumber h hreplaces)
      · obtain rfl : c = '.' := ‹c = '.'›
        exact congrArg some (Piece.ofKind_again (t := '.' :: t) local_dotOperator h hreplaces)
      · exact Piece.ofPunctuation_again h hr hs

/-- The kinds of lexemes that can be divided in two and joined again. -/
def IsDivisible (kind : Kind) : Prop :=
  kind = .name ∨ kind = .number ∨ kind = .dotOperator ∨ kind = .operator

theorem not_isDivisible_punctuationKind (c : Char) : ¬IsDivisible (punctuationKind c) := by
  unfold punctuationKind
  split
  · simp [IsDivisible]
  · split <;> simp [IsDivisible]

theorem any_head?_of_stops {p : Char → Bool} (hp : p continuationMark = false) {s : Text}
    (hs : Stops s) : s.head?.any p = false := by
  cases s with
  | nil => rfl
  | cons c s =>
      rw [List.head?_cons, Option.any_some, hs c rfl, hp]

theorem first?_point (t : Text) : Piece.first? ('.' :: t) = some
    (if t.head?.any Char.isDigit then .ofKind .number (pointNumberPattern ('.' :: t))
    else .ofKind .dotOperator (dotOperatorPattern ('.' :: t))) := by
  by_cases ht : t.head?.any Char.isDigit = true
  · rw [if_pos ht]
    simp only [Piece.first?, Piece.ofCons?, ht]
    rfl
  · rw [if_neg ht]
    simp only [Piece.first?, Piece.ofCons?, ht]
    rfl

theorem first?_dotOperator {t s : Text} (ht : (t ++ s).head?.any Char.isDigit = false)
    (htaken : dotOperatorPattern ('.' :: t ++ s) = ('.' :: t, s)) :
    Piece.first? ('.' :: (t ++ s)) = some ⟨⟨.dotOperator, '.' :: t⟩, s, none⟩ := by
  rw [first?_point, if_neg (Bool.eq_false_iff.mp ht)]
  exact congrArg some (Piece.ofKind_eq_iff.mpr ⟨rfl, htaken, rfl⟩)

theorem Piece.ofPunctuation_front {kind : Kind} (hkind : IsDivisible kind) {c : Char}
    {u v r s : Text} {o : Option Char}
    (h : Piece.ofPunctuation c (u ++ (v ++ r)) = ⟨⟨kind, c :: u ++ v⟩, r, o⟩) (hs : Stops s) :
    ∃ k, Piece.ofPunctuation c (u ++ s) = ⟨⟨k, c :: u⟩, s, none⟩ ∧ k.role = .semantic ∧
      (v = [] → k = kind) := by
  cases hwhole : u ++ (v ++ r) with
  | nil =>
      rw [hwhole] at h
      obtain ⟨rfl, _⟩ := Piece.ofKind_eq_iff.mp h
      exact absurd hkind (not_isDivisible_punctuationKind c)
  | cons d rest =>
      rw [hwhole, Piece.ofPunctuation] at h
      by_cases hpair : [c, d] ∈ pairs
      · rw [if_pos hpair] at h
        obtain ⟨rfl, htaken, _⟩ := Piece.ofKind_eq_iff.mp h
        have htext : [d] = u ++ v := (List.cons.inj (congrArg Prod.fst htaken)).2
        cases u with
        | nil =>
            obtain rfl : v = [d] := htext.symm
            have hsingle : Piece.ofPunctuation c s = .ofKind (punctuationKind c) ([c], s) := by
              cases s with
              | nil => rfl
              | cons e s =>
                  obtain rfl : e = continuationMark := hs e rfl
                  have hmark : [c, continuationMark] ∉ pairs := by simp [pairs, continuationMark]
                  rw [Piece.ofPunctuation, if_neg hmark]
            have hrole : (punctuationKind c).role = .semantic := by
              simp only [pairs, List.mem_cons, List.cons.injEq, and_true, List.not_mem_nil,
                or_false] at hpair
              rcases hpair with ⟨rfl, _⟩ | ⟨rfl, _⟩ | ⟨rfl, _⟩ | ⟨rfl, _⟩ | ⟨rfl, _⟩ | ⟨rfl, _⟩ |
                ⟨rfl, _⟩ | ⟨rfl, _⟩ <;> rfl
            exact ⟨_, hsingle, hrole, fun hnil => absurd hnil (List.cons_ne_nil d [])⟩
        | cons e u =>
            obtain ⟨rfl, hnil⟩ := List.cons.inj htext
            obtain ⟨rfl, rfl⟩ := List.append_eq_nil_iff.mp hnil.symm
            refine ⟨.operator, ?_, rfl, fun _ => rfl⟩
            simp [Piece.ofPunctuation, hpair, Piece.ofKind]
      · rw [if_neg hpair] at h
        obtain ⟨rfl, _⟩ := Piece.ofKind_eq_iff.mp h
        exact absurd hkind (not_isDivisible_punctuationKind c)

/-- A front of a name, a number or an operator is a lexeme where the text stops behind it. -/
theorem first?_front {kind : Kind} (hkind : IsDivisible kind) {u v r s : Text} {o : Option Char}
    (h : Piece.first? (u ++ (v ++ r)) = some ⟨⟨kind, u ++ v⟩, r, o⟩) (hu : u ≠ [])
    (hs : Stops s) :
    ∃ k, Piece.first? (u ++ s) = some ⟨⟨k, u⟩, s, none⟩ ∧ k.role = .semantic ∧
      (v = [] → k = kind) := by
  obtain ⟨c, u, rfl⟩ := List.exists_cons_of_ne_nil hu
  simp only [List.cons_append, Piece.first?, Piece.ofCons?] at h ⊢
  repeat' split at h
  all_goals simp only [Option.some.injEq, reduceCtorEq] at h
  · obtain ⟨rfl, _⟩ := Piece.ofKind_eq_iff.mp h
    simp [IsDivisible] at hkind
  · obtain rfl : Kind.string = kind := congrArg (·.lexeme.kind) h
    simp [IsDivisible] at hkind
  · obtain ⟨rfl, htaken, _⟩ := Piece.ofKind_eq_iff.mp h
    refine ⟨.name, ?_, rfl, fun _ => rfl⟩
    have hfront : namePattern (c :: u ++ s) = (c :: u, s) :=
      local_name (c :: u) v r s htaken (.inr hs)
    simp only [*, if_true, if_false, Bool.false_eq_true]
    exact congrArg some (Piece.ofKind_eq_iff.mpr ⟨rfl, hfront, rfl⟩)
  · obtain ⟨rfl, htaken, _⟩ := Piece.ofKind_eq_iff.mp h
    refine ⟨.number, ?_, rfl, fun _ => rfl⟩
    have hfront : numberPattern (c :: u ++ s) = (c :: u, s) :=
      number_front (u := c :: u) htaken hs
    simp only [*, if_true, if_false, Bool.false_eq_true]
    exact congrArg some (Piece.ofKind_eq_iff.mpr ⟨rfl, hfront, rfl⟩)
  · obtain ⟨rfl, _⟩ := Piece.ofKind_eq_iff.mp h
    simp [IsDivisible] at hkind
  · rename_i hdigit
    obtain ⟨rfl, htaken, _⟩ := Piece.ofKind_eq_iff.mp h
    obtain rfl : c = '.' := ‹c = '.'›
    cases u with
    | nil =>
        -- the point alone is an operator, but not if it is the whole lexeme
        have hpoint : dotOperatorPattern (['.'] ++ s) = (['.'], s) :=
          local_dotOperator.again (r := []) rfl (.inr hs)
        have hnext : ([] ++ s).head?.any Char.isDigit = false :=
          any_head?_of_stops (by decide) hs
        refine ⟨.dotOperator, first?_dotOperator hnext hpoint, rfl, ?_⟩
        rintro rfl
        cases r with
        | nil => cases hdigit
        | cons d r =>
            have hd : d.isDigit = true := hdigit
            simp [pointNumberPattern, Pattern.seq, Pattern.lead, digitsPattern, Pattern.many, hd]
              at htaken
    | cons d u =>
        have hd : (d :: (u ++ s)).head?.any Char.isDigit = true := hdigit
        have hfront : pointNumberPattern ('.' :: d :: u ++ s) = ('.' :: d :: u, s) :=
          local_pointNumber ('.' :: d :: u) v r s htaken (.inr hs)
        refine ⟨.number, (first?_point (d :: (u ++ s))).trans ?_, rfl, fun _ => rfl⟩
        rw [if_pos hd]
        exact congrArg some (Piece.ofKind_eq_iff.mpr ⟨rfl, hfront, rfl⟩)
  · rename_i hdigit
    obtain ⟨rfl, htaken, _⟩ := Piece.ofKind_eq_iff.mp h
    obtain rfl : c = '.' := ‹c = '.'›
    have hfront : dotOperatorPattern ('.' :: u ++ s) = ('.' :: u, s) :=
      local_dotOperator ('.' :: u) v r s htaken (.inr hs)
    have hnext : (u ++ s).head?.any Char.isDigit = false := by
      cases u with
      | nil => exact any_head?_of_stops (by decide) hs
      | cons d u => exact Bool.eq_false_iff.mpr hdigit
    exact ⟨.dotOperator, first?_dotOperator hnext hfront, rfl, fun _ => rfl⟩
  · obtain ⟨k, hfront, hrole, hk⟩ := Piece.ofPunctuation_front hkind h hs
    refine ⟨k, ?_, hrole, hk⟩
    simp only [*, if_true, if_false, Bool.false_eq_true]

/-- What opens a dotted operator starts with one. -/
theorem exists_letters_of_opens {t r : Text} {l : Lexeme} {o : Option Char}
    (hopens : opensDotOperator t = true) (h : Piece.first? t = some ⟨l, r, o⟩) :
    ∃ letters, l = ⟨.dotOperator, '.' :: (letters ++ ['.'])⟩ ∧ letters ≠ [] ∧
      ∀ c ∈ letters, Unicode.isAlphabetic c = true := by
  obtain ⟨letters, rest, rfl, hne, hletters⟩ := opensDotOperator_iff.mp hopens
  have htaken : dotOperatorPattern ('.' :: (letters ++ '.' :: rest)) =
      ('.' :: (letters ++ ['.']), rest) := by
    have hmany : Pattern.many Unicode.isAlphabetic (letters ++ '.' :: rest) =
        (letters, '.' :: rest) := by
      refine Pattern.many_eq_iff.mpr ⟨hletters, ?_⟩
      rintro c hc
      rw [← Option.some.inj hc]
      decide
    simp [dotOperatorPattern, operatorTailPattern, Pattern.lead, Pattern.seq, hmany,
      Pattern.nothing]
  have hnext : ¬(letters ++ '.' :: rest).head?.any Char.isDigit = true := by
    obtain ⟨d, letters, rfl⟩ := List.exists_cons_of_ne_nil hne
    intro hd
    have hletter := hletters d List.mem_cons_self
    rw [Unicode.not_isAlphabetic_of_isDigit hd] at hletter
    cases hletter
  rw [first?_point, if_neg hnext, htaken] at h
  cases h
  exact ⟨letters, rfl, hne, hletters⟩

theorem head?_of_dotOperator {t : Text} {p : Piece} (h : Piece.first? t = some p)
    (hkind : p.lexeme.kind = .dotOperator) : t.head? = some '.' := by
  cases t with
  | nil => cases h
  | cons c rest =>
      simp only [Piece.first?, Piece.ofCons?] at h
      repeat' split at h
      all_goals simp only [Option.some.injEq, reduceCtorEq] at h
      all_goals subst h
      iterate 5
        · cases hkind
      · rw [‹c = '.'›]
        rfl
      · rw [‹c = '.'›]
        rfl
      · have hdivisible : IsDivisible .dotOperator := by simp [IsDivisible]
        rw [← hkind] at hdivisible
        cases rest with
        | nil => exact absurd hdivisible (not_isDivisible_punctuationKind c)
        | cons d rest =>
            by_cases hpair : [c, d] ∈ pairs
            · simp [Piece.ofPunctuation, hpair, Piece.ofKind] at hkind
            · rw [Piece.ofPunctuation, if_neg hpair] at hdivisible
              exact absurd hdivisible (not_isDivisible_punctuationKind c)

theorem beq_eq_false_of_test {p : Char → Bool} {c d : Char} (hc : p c = true) (hd : p d = false) :
    (c == d) = false := by
  rw [beq_eq_false_iff_ne]
  rintro rfl
  rw [hc] at hd
  cases hd

theorem first?_digit {c : Char} (hc : c.isDigit = true) (rest : Text) :
    Piece.first? (c :: rest) = some (.ofKind .number (numberPattern (c :: rest))) := by
  have hother : ∀ d, d.isDigit = false → (c == d) = false :=
    fun d hd => beq_eq_false_of_test hc hd
  simp [Piece.first?, Piece.ofCons?, isBlank, isQuote, isNameStart, hc,
    Unicode.not_isAlphabetic_of_isDigit hc, hother]

/-- Letters in front of a continuation mark are a name. -/
theorem first?_letter {c : Char} {t : Text} (hc : Unicode.isAlphabetic c = true)
    (ht : ∀ d ∈ t, Unicode.isAlphabetic d = true) :
    Piece.first? (c :: t ++ [continuationMark]) =
      some ⟨⟨.name, c :: t⟩, [continuationMark], none⟩ := by
  have hother : ∀ d, Unicode.isAlphabetic d = false → (c == d) = false :=
    fun d hd => beq_eq_false_of_test hc hd
  have htaken : namePattern (c :: t ++ [continuationMark]) = (c :: t, [continuationMark]) := by
    have hmark : ∀ d ∈ [continuationMark].head?, isNamePart d = false := by
      intro d hd
      rw [← Option.some.inj hd]
      decide
    refine Pattern.many_eq_iff.mpr ⟨?_, hmark⟩
    intro d hd
    have hletter : Unicode.isAlphabetic d = true := by
      rcases List.mem_cons.mp hd with rfl | hd
      · exact hc
      · exact ht d hd
    simp [isNamePart, hletter]
  have hblank : isBlank c = false := by
    simp [isBlank, hother ' ' (by decide), hother '\t' (by decide)]
  have hquote : isQuote c = false := by
    simp [isQuote, hother '\'' (by decide), hother '"' (by decide)]
  rw [List.cons_append] at htaken ⊢
  simp [Piece.first?, Piece.ofCons?, hblank, hquote, isNameStart, hc, htaken, Piece.ofKind]

theorem Piece.opened_ofPunctuation (c : Char) (rest : Text) :
    (Piece.ofPunctuation c rest).opened = none := by
  cases rest with
  | nil => rfl
  | cons d rest =>
      by_cases hpair : [c, d] ∈ pairs <;> simp [Piece.ofPunctuation, Piece.ofKind, hpair]

/-- A string that is left open reaches to a trailing continuation mark. -/
theorem opened_of_first? {t : Text} {p : Piece} (h : Piece.first? t = some p)
    (ho : p.opened ≠ none) :
    p.lexeme.kind = .string ∧ ∃ blanks, p.rest = continuationMark :: blanks ∧
      blanks.all isBlank = true := by
  cases t with
  | nil => cases h
  | cons c rest =>
      simp only [Piece.first?, Piece.ofCons?] at h
      repeat' split at h
      all_goals simp only [Option.some.injEq, reduceCtorEq] at h
      all_goals subst h
      · exact absurd rfl ho
      · have hcontinued : (readQuotation c rest).continued = true := by
          cases hq : (readQuotation c rest).continued with
          | true => rfl
          | false => simp [Piece.ofQuotation, Quotation.cons, hq] at ho
        exact ⟨rfl, readQuotation_rest_of_continued hcontinued⟩
      -- nothing but a string is left open
      iterate 5
        · exact absurd rfl ho
      · rw [Piece.opened_ofPunctuation] at ho
        exact absurd rfl ho

/-- Reading a text lexeme by lexeme up to another text, with no string left open. -/
inductive Reads : Text → List Lexeme → Text → Prop
  | nil (t : Text) : Reads t [] t
  | cons {l : Lexeme} {ls : List Lexeme} {rest t : Text}
      (h : Piece.first? (l.text ++ rest) = some ⟨l, rest, none⟩) (hrest : Reads rest ls t) :
      Reads (l.text ++ rest) (l :: ls) t

theorem Reads.eq_append {t u : Text} {ls : List Lexeme} (h : Reads t ls u) :
    t = concat ls ++ u := by
  induction h with
  | nil t => rfl
  | cons _ _ ih => rw [concat_cons, List.append_assoc, ← ih]

theorem Reads.of_first? {kind : Kind} {t r u : Text} {ls : List Lexeme}
    (h : Piece.first? (t ++ r) = some ⟨⟨kind, t⟩, r, none⟩) (hrest : Reads r ls u) :
    Reads (t ++ r) (⟨kind, t⟩ :: ls) u :=
  .cons (l := ⟨kind, t⟩) h hrest

theorem Reads.trans {t u s : Text} {ls ms : List Lexeme} (h : Reads t ls u) (h' : Reads u ms s) :
    Reads t (ls ++ ms) s := by
  induction h with
  | nil t => exact h'
  | cons hfirst _ ih => exact .cons hfirst (ih h')

theorem Reads.exists_of_append {t u : Text} {ls ms : List Lexeme} (h : Reads t (ls ++ ms) u) :
    ∃ s, Reads t ls s ∧ Reads s ms u := by
  induction ls generalizing t with
  | nil => exact ⟨t, .nil t, h⟩
  | cons l ls ih =>
      cases h with
      | cons hfirst hrest =>
          obtain ⟨s, hfront, hback⟩ := ih hrest
          exact ⟨s, .cons hfirst hfront, hback⟩

theorem Reads.scanFresh {t u : Text} {ls : List Lexeme} (h : Reads t ls u) :
    scanFresh (fun _ => none) t = (scanFresh (fun _ => none) u).after ls none := by
  induction h with
  | nil t => rfl
  | @cons l ls rest t hfirst _ ih =>
      rw [scanFresh_of_first? hfirst, ih]
      rfl

theorem first?_of_scanFresh {t : Text} {l : Lexeme} {ls : List Lexeme}
    (h : (Line.scanFresh (fun _ => none) t).lexemes = l :: ls) :
    ∃ rest o, t = l.text ++ rest ∧ Piece.first? (l.text ++ rest) = some ⟨l, rest, o⟩ ∧
      (Line.scanFresh (fun _ => none) rest).lexemes = ls := by
  cases hfirst : Piece.first? t with
  | none =>
      rw [scanFresh_of_none hfirst] at h
      cases h
  | some p =>
      rw [scanFresh_of_first? hfirst] at h
      obtain ⟨rfl, hrest⟩ := List.cons.inj h
      have happ := Piece.first?_append hfirst
      exact ⟨p.rest, p.opened, happ.symm, happ.symm ▸ hfirst, hrest⟩

/-- The lexemes in front of one that can be divided leave no string open. -/
theorem exists_reads {t : Text} {before after : List Lexeme} {l : Lexeme}
    (hkind : IsDivisible l.kind)
    (h : (Line.scanFresh (fun _ => none) t).lexemes = before ++ l :: after) :
    ∃ rest, Reads t before (l.text ++ rest) ∧
      Piece.first? (l.text ++ rest) = some ⟨l, rest, none⟩ ∧
      (Line.scanFresh (fun _ => none) rest).lexemes = after := by
  induction before generalizing t with
  | nil =>
      obtain ⟨rest, o, rfl, hfirst, hrest⟩ := first?_of_scanFresh h
      cases o with
      | none => exact ⟨rest, .nil _, hfirst, hrest⟩
      | some q =>
          have hstring := (opened_of_first? hfirst (Option.some_ne_none q)).1
          dsimp only at hstring
          simp [IsDivisible, hstring] at hkind
  | cons m before ih =>
      obtain ⟨rest, o, rfl, hfirst, hrest⟩ := first?_of_scanFresh h
      obtain ⟨rest', hreads, hl, hafter⟩ := ih hrest
      cases o with
      | none => exact ⟨rest', .cons hfirst hreads, hl, hafter⟩
      | some q =>
          -- behind a string that is left open the line has nothing but the mark
          obtain ⟨_, trailing, hmark, hblanks⟩ := opened_of_first? hfirst (Option.some_ne_none q)
          dsimp only at hmark
          have hmem : l ∈ marker :: blanks trailing := by
            rw [hmark, scanFresh_mark, scanFresh_blanks hblanks] at hrest
            rw [show marker :: blanks trailing = before ++ l :: after from hrest]
            simp
          rcases List.mem_cons.mp hmem with rfl | hmem
          · simp [IsDivisible, marker] at hkind
          · rw [List.mem_singleton.mp (List.mem_filter.mp hmem).1] at hkind
            simp [IsDivisible] at hkind

theorem Reads.opens {t u s : Text} {l : Lexeme} {ls : List Lexeme} (h : Reads t (l :: ls) u)
    (hopens : opensDotOperator t = true) :
    opensDotOperator (concat (l :: ls) ++ s) = true := by
  cases h with
  | cons hfirst _ =>
      rw [concat_cons, List.append_assoc]
      obtain ⟨letters, rfl, hne, hletters⟩ := exists_letters_of_opens hopens hfirst
      exact opensDotOperator_append (opensDotOperator_iff.mpr ⟨letters, [], rfl, hne, hletters⟩) _

/-- Lexemes are read again in front of any text that starts with the same character, unless dotted
operators are opened otherwise. -/
theorem Reads.again {t r s : Text} {ls : List Lexeme} (h : Reads t ls r) (hr : r ≠ [])
    (hs : s.head? = r.head?)
    (hopens : ∀ l ∈ ls.getLast?, (∀ c ∈ l.text, c.isDigit = true) → opensDotOperator r = true →
      opensDotOperator s = true)
    (hopened : ∀ z ≠ [], opensDotOperator (z ++ s) = true → opensDotOperator (z ++ r) = true) :
    Reads (concat ls ++ s) ls s := by
  induction h with
  | nil t => exact .nil s
  | @cons l ls rest r hl hrest ih =>
      have hlast : ∀ m ∈ ls.getLast?, m ∈ (l :: ls).getLast? := by
        intro m hm
        rw [List.getLast?_cons, Option.mem_def.mp hm]
        rfl
      have hbehind := ih hr hs (fun m hm => hopens m (hlast m hm)) hopened
      obtain rfl := hrest.eq_append
      rw [concat_cons, List.append_assoc]
      refine .cons (first?_again hl ?_ ?_ ?_ ?_) hbehind
      · simp [hr]
      · rw [List.head?_append, List.head?_append, hs]
      · intro hdigits hrestOpens
        cases ls with
        | nil => exact hopens l rfl hdigits hrestOpens
        | cons m ls => exact hrest.opens hrestOpens
      · intro z hz
        rw [← List.append_assoc, ← List.append_assoc]
        exact hopened _ (List.append_ne_nil_of_left_ne_nil hz _)

/-- A line that is divided within a lexeme is read as before up to there. -/
theorem Reads.front {kind : Kind} {t u v r s : Text} {before : List Lexeme} {o : Option Char}
    (h : Reads t before (u ++ (v ++ r)))
    (hfirst : Piece.first? (u ++ (v ++ r)) = some ⟨⟨kind, u ++ v⟩, r, o⟩) (hu : u ≠ [])
    (hpoint : ¬(kind = .dotOperator ∧ ∃ l ∈ before.getLast?, ∀ c ∈ l.text, c.isDigit = true))
    (hs : Stops s) : Reads (concat before ++ (u ++ s)) before (u ++ s) := by
  refine h.again ?_ ?_ ?_ ?_
  · simp [hu]
  · obtain ⟨c, u, rfl⟩ := List.exists_cons_of_ne_nil hu
    rfl
  · intro l hl hdigits hopens
    obtain ⟨letters, hdotted, _⟩ := exists_letters_of_opens hopens hfirst
    exact absurd ⟨congrArg Lexeme.kind hdotted, l, hl, hdigits⟩ hpoint
  · intro z _ hopens
    rw [← List.append_assoc] at hopens ⊢
    exact opensDotOperator_append (opensDotOperator_of_stops hs hopens) (v ++ r)

end Line

end FreeForm
