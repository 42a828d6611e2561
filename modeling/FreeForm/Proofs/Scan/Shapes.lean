import FreeForm.Proofs.Scan.Numbers
import FreeForm.Proofs.Scan.Rescan

namespace FreeForm

/-!
# The shapes of lexemes

Each kind of lexeme has its shape, and a lexeme is as long as its shape allows: the next character
of the line does not go on with it. Only the end of the line stands behind a comment, and only that
and a continuation mark with its blanks behind a string that is not closed.
-/

open Lexeme

namespace Lexeme

/-- The next character of a line, in front of some of its lexemes. -/
def next? (after : List Lexeme) : Option Char :=
  (concat after).head?

/-- The shape of a lexeme in front of the lexemes behind it on its line. -/
inductive Shape : Lexeme → List Lexeme → Prop
  | whitespace {t : Text} {after : List Lexeme} (hne : t ≠ []) (ht : ∀ c ∈ t, c = ' ' ∨ c = '\t')
      (hnext : ∀ c ∈ next? after, c ≠ ' ' ∧ c ≠ '\t')
      (hafter : ∀ l ∈ after.head?, l.kind ≠ .whitespace) :
      Shape ⟨.whitespace, t⟩ after
  | name {c : Char} {t : Text} {after : List Lexeme} (hc : isNameStart c = true)
      (ht : ∀ d ∈ t, isNamePart d = true) (hnext : ∀ d ∈ next? after, isNamePart d = false) :
      Shape ⟨.name, c :: t⟩ after
  | number {t : Text} {after : List Lexeme} (ht : IsNumber t)
      (hlongest : ∀ u ≠ [], u <+: concat after → IsNumber (t ++ u) →
        IsDigits t ∧ opensDotOperator (concat after) = true) :
      Shape ⟨.number, t⟩ after
  | dotOperator {letters stop : Text} {after : List Lexeme}
      (hletters : ∀ c ∈ letters, Unicode.isAlphabetic c = true)
      (hstop : stop = ['.'] ∨
        stop = [] ∧ ∀ c ∈ next? after, Unicode.isAlphabetic c = false ∧ c ≠ '.')
      (hdigit : ∀ c ∈ (letters ++ stop ++ concat after).head?, c.isDigit = false) :
      Shape ⟨.dotOperator, '.' :: (letters ++ stop)⟩ after
  | closed {q : Char} {t : Text} {after : List Lexeme} (hq : q = '\'' ∨ q = '"')
      (ht : Within q t) (hnext : ∀ c ∈ next? after, c ≠ q) :
      Shape ⟨.string, q :: (t ++ [q])⟩ after
  | unterminated {q : Char} {t : Text} {after : List Lexeme} {e : Lexeme}
      (hq : q = '\'' ∨ q = '"') (ht : Within q t) (he : e.kind = .lineEnd)
      (hafter : after = [e] ∨
        ∃ trailing, trailing.all isBlank = true ∧
          after = Line.marker :: (Line.blanks trailing ++ [e])) :
      Shape ⟨.string, q :: t⟩ after
  | comment {c : Char} {t : Text} {e : Lexeme} (hc : c = '!' ∨ c = '#') (he : e.kind = .lineEnd) :
      Shape ⟨.comment, c :: t⟩ [e]
  | operator {t : Text} {after : List Lexeme} (ht : t ∈ Line.pairs) : Shape ⟨.operator, t⟩ after
  | single {c : Char} {after : List Lexeme} (hc : c ∈ Line.punctuation)
      (hnext : ∀ d ∈ next? after, [c, d] ∉ Line.pairs) :
      Shape ⟨Line.punctuationKind c, [c]⟩ after
  | lineEnd {t : Text} (ht : t = [] ∨ t = ['\n'] ∨ t = ['\r', '\n']) : Shape ⟨.lineEnd, t⟩ []

end Lexeme

namespace Lexeme

theorem exists_of_dotOperator {t r : Text} (h : dotOperatorPattern ('.' :: t ++ r) = ('.' :: t, r)) :
    ∃ letters stop, t = letters ++ stop ∧ (∀ c ∈ letters, Unicode.isAlphabetic c = true) ∧
      (stop = ['.'] ∨ stop = [] ∧ ∀ c ∈ r.head?, Unicode.isAlphabetic c = false ∧ c ≠ '.') := by
  have htail : operatorTailPattern (t ++ r) = (t, r) := by
    rw [dotOperatorPattern, List.cons_append, lead_cons (by decide)] at h
    obtain ⟨htaken, hleft⟩ := Prod.mk.inj h
    exact Prod.ext (List.cons.inj htaken).2 hleft
  obtain ⟨letters, stop, rfl, hmany, hpoint⟩ :=
    Pattern.seq_cases (Pattern.lossless_many _) Pattern.lossless_nothing.lead htail
  obtain ⟨hletters, hnext⟩ := Pattern.many_eq_iff.mp hmany
  refine ⟨letters, stop, rfl, hletters, ?_⟩
  rcases lead_cases (· == '.') Pattern.nothing (stop ++ r) with hnil | ⟨c, _, _, hc, htaken⟩
  · rw [hpoint] at hnil
    obtain rfl : stop = [] := hnil
    refine .inr ⟨rfl, fun c hc => ⟨hnext c hc, ?_⟩⟩
    rintro rfl
    obtain ⟨rest, rfl⟩ := List.head?_eq_some_iff.mp hc
    cases congrArg Prod.fst hpoint
  · rw [hpoint] at htaken
    rw [beq_iff_eq.mp hc] at htaken
    exact .inl htaken

end Lexeme

namespace Line

section Behind

variable {stop : Text} (hstop : stop = [] ∨ stop = ['\n'] ∨ stop = ['\r', '\n'])
include hstop

/-- What holds of the next character, and of the characters of a line end, holds of the next
character of the line. -/
theorem forall_head?_append {p : Char → Prop} (hfeed : p '\n') (hreturn : p '\r') {r : Text}
    (hr : ∀ c ∈ r.head?, p c) : ∀ c ∈ (r ++ stop).head?, p c := by
  cases r with
  | cons d r => exact hr
  | nil =>
      intro c hc
      rcases hstop with rfl | rfl | rfl
      · cases hc
      · rwa [← Option.some.inj hc]
      · rwa [← Option.some.inj hc]

/-- A front of the rest of a line without the characters of a line end stands in front of the line
end. -/
theorem prefix_of_prefix_append {u r : Text} (hu : ∀ c ∈ u, c ≠ '\n' ∧ c ≠ '\r')
    (h : u <+: r ++ stop) : u <+: r := by
  obtain ⟨v, hv⟩ := h
  rcases List.append_eq_append_iff.mp hv with ⟨w, rfl, _⟩ | ⟨w, rfl, hw⟩
  · exact ⟨w, rfl⟩
  · cases w with
    | nil => simp
    | cons c w =>
        have hc := hu c (by simp)
        rcases hstop with rfl | rfl | rfl
        · cases hw
        · exact absurd (List.cons.inj hw).1.symm hc.1
        · exact absurd (List.cons.inj hw).1.symm hc.2

variable {r : Text} {behind : List Lexeme} {o' : Option Char}
  (hbehind : scanFresh (fun _ => none) r = ⟨behind, o', []⟩)
include hbehind

omit hstop in
theorem concat_behind : concat (behind ++ [⟨.lineEnd, stop⟩]) = r ++ stop := by
  have hspelled := scanFresh_append r
  rw [hbehind, List.append_nil] at hspelled
  rw [concat_append, hspelled, concat_cons, concat_nil, List.append_nil]

theorem forall_next? {p : Char → Prop} (hfeed : p '\n') (hreturn : p '\r')
    (hr : ∀ c ∈ r.head?, p c) : ∀ c ∈ next? (behind ++ [⟨.lineEnd, stop⟩]), p c := by
  rw [next?, concat_behind hbehind]
  exact forall_head?_append hstop hfeed hreturn hr

theorem shape_whitespace {t : Text} (hne : t ≠ []) (h : Pattern.many isBlank (t ++ r) = (t, r)) :
    Shape ⟨.whitespace, t⟩ (behind ++ [⟨.lineEnd, stop⟩]) := by
  obtain ⟨ht, hr⟩ := Pattern.many_eq_iff.mp h
  refine .whitespace hne (fun c hc => isBlank_iff.mp (ht c hc)) ?_ ?_
  · refine forall_next? hstop hbehind (by decide) (by decide) fun c hc => ?_
    have hc := hr c hc
    rw [Bool.eq_false_iff, ne_eq, isBlank_iff, not_or] at hc
    exact hc
  · intro l hl hkind
    cases behind with
    | nil =>
        obtain rfl := Option.some.inj hl
        cases hkind
    | cons m behind =>
        -- white space behind it would start with a blank
        obtain rfl : m = l := Option.some.inj hl
        obtain ⟨rest, o, rfl, hfirst, _⟩ := first?_of_scanFresh (congrArg Scan.lexemes hbehind)
        have hblank :=
          Piece.isBlank_of_first? hfirst (by simp [isWhitespace, role, hkind, Kind.role])
        obtain ⟨c, text, hc⟩ := List.exists_cons_of_ne_nil (Piece.first?_text_ne_nil hfirst)
        dsimp only at hblank hc
        rw [hc] at hblank hr
        have hfirst := hr c rfl
        rw [List.all_eq_true.mp hblank c List.mem_cons_self] at hfirst
        cases hfirst

theorem shape_number {t : Text} (ht : IsNumber t)
    (hlongest : ∀ u ≠ [], u <+: r → IsNumber (t ++ u) → IsDigits t ∧ opensDotOperator r = true) :
    Shape ⟨.number, t⟩ (behind ++ [⟨.lineEnd, stop⟩]) := by
  refine .number ht fun u hne hu hnumber => ?_
  rw [concat_behind hbehind] at hu ⊢
  have hplain : ∀ c ∈ u, c ≠ '\n' ∧ c ≠ '\r' := by
    intro c hc
    have hwordy := hnumber.isWordy c (List.mem_append_right t hc)
    constructor
    · rintro rfl
      cases hwordy
    · rintro rfl
      cases hwordy
  obtain ⟨hdigits, hopens⟩ := hlongest u hne (prefix_of_prefix_append hstop hplain hu) hnumber
  exact ⟨hdigits, opensDotOperator_append hopens stop⟩

theorem shape_string {l : Lexeme} {o : Option Char}
    (h : Piece.first? (l.text ++ r) = some ⟨l, r, o⟩) (hkind : l.kind = .string) :
    Shape l (behind ++ [⟨.lineEnd, stop⟩]) := by
  obtain ⟨q, t, hq, rfl, hread, _⟩ := exists_of_first?_string h hkind
  have hfeed : '\n' ≠ q := by rcases hq with rfl | rfl <;> decide
  have hreturn : '\r' ≠ q := by rcases hq with rfl | rfl <;> decide
  cases o with
  | some q' =>
      obtain ⟨o'', hcut, hopen⟩ := exists_cut_of_readQuotation hread
      obtain rfl := hopen rfl
      obtain ⟨_, trailing, hmark, htrailing⟩ := opened_of_first? h (Option.some_ne_none q')
      dsimp only at hmark
      rw [hmark, scanFresh_mark, scanFresh_blanks htrailing] at hbehind
      obtain rfl : marker :: blanks trailing = behind := congrArg Scan.lexemes hbehind
      cases hcut with
      | within ht => exact .unterminated hq ht rfl (.inr ⟨trailing, htrailing, rfl⟩)
  | none =>
      by_cases hr : r = []
      · subst hr
        rw [scanFresh_nil] at hbehind
        obtain rfl : [] = behind := congrArg Scan.lexemes hbehind
        obtain ⟨o'', hcut, _⟩ := exists_cut_of_readQuotation hread
        cases hcut with
        | within ht => exact .unterminated hq ht rfl (.inl rfl)
        | behind ht =>
            refine .closed hq ht (forall_next? hstop scanFresh_nil hfeed hreturn ?_)
            intro c hc
            cases hc
      · obtain ⟨w, hw, rfl, hhead⟩ := behind_of_readQuotation hread hr
        refine .closed hq hw (forall_next? hstop hbehind hfeed hreturn ?_)
        rintro c hc rfl
        exact hhead hc

theorem shape_punctuation {c : Char} {t : Text} {k : Kind} {o : Option Char}
    (hc : c ∈ punctuation) (h : Piece.ofPunctuation c (t ++ r) = ⟨⟨k, c :: t⟩, r, o⟩) :
    Shape ⟨k, c :: t⟩ (behind ++ [⟨.lineEnd, stop⟩]) := by
  have hsingle : ∀ rest, ([c], rest) = (c :: t, r) → (∀ d ∈ rest.head?, [c, d] ∉ pairs) →
      Shape ⟨punctuationKind c, c :: t⟩ (behind ++ [⟨.lineEnd, stop⟩]) := by
    intro rest htaken hpairs
    obtain ⟨htext, rfl⟩ := Prod.mk.inj htaken
    rw [← htext]
    exact .single hc (forall_next? hstop hbehind (p := fun d => [c, d] ∉ pairs)
      (by simp [pairs]) (by simp [pairs]) hpairs)
  generalize t ++ r = rest at h
  cases rest with
  | nil =>
      obtain ⟨rfl, htaken, _⟩ := Piece.ofKind_eq_iff.mp h
      exact hsingle [] htaken (by simp)
  | cons d rest =>
      by_cases hpair : [c, d] ∈ pairs
      · rw [Piece.ofPunctuation, if_pos hpair] at h
        obtain ⟨rfl, htaken, _⟩ := Piece.ofKind_eq_iff.mp h
        have htext : [c, d] = c :: t := congrArg Prod.fst htaken
        rw [← htext]
        exact .operator hpair
      · rw [Piece.ofPunctuation, if_neg hpair] at h
        obtain ⟨rfl, htaken, _⟩ := Piece.ofKind_eq_iff.mp h
        refine hsingle (d :: rest) htaken fun e he => ?_
        rwa [← Option.some.inj he]

/-- What is read at the front of a text has the shape of its kind. -/
theorem shape_of_first? {l : Lexeme} {o : Option Char}
    (h : Piece.first? (l.text ++ r) = some ⟨l, r, o⟩) :
    Shape l (behind ++ [⟨.lineEnd, stop⟩]) := by
  by_cases hstring : l.kind = .string
  · exact shape_string hstop hbehind h hstring
  obtain ⟨k, text⟩ := l
  obtain ⟨c, t, rfl⟩ := List.exists_cons_of_ne_nil (Piece.first?_text_ne_nil h)
  simp only [List.cons_append, Piece.first?, Piece.ofCons?] at h
  repeat' split at h
  all_goals simp only [Option.some.injEq, reduceCtorEq] at h
  · obtain ⟨rfl, htaken, _⟩ := Piece.ofKind_eq_iff.mp h
    exact shape_whitespace hstop hbehind (List.cons_ne_nil c t) htaken
  · exact absurd (congrArg (·.lexeme.kind) h).symm hstring
  · obtain ⟨rfl, htaken, _⟩ := Piece.ofKind_eq_iff.mp h
    obtain ⟨ht, hr⟩ := Pattern.many_eq_iff (t := c :: t).mp htaken
    exact .name ‹_› (List.forall_mem_cons.mp ht).2
      (forall_next? hstop hbehind (p := fun d => isNamePart d = false) (by decide) (by decide) hr)
  · obtain ⟨rfl, htaken, _⟩ := Piece.ofKind_eq_iff.mp h
    have hnumber := isNumber_taken ‹c.isDigit = true› (t ++ r)
    rw [htaken] at hnumber
    refine shape_number hstop hbehind hnumber fun u hne hu hlonger => ?_
    by_contra hopens
    exact not_isNumber_append hne hu ‹c.isDigit = true› htaken hopens hlonger
  · rename_i hmark
    obtain ⟨rfl, htaken, _⟩ := Piece.ofKind_eq_iff.mp h
    obtain rfl : [] = r := congrArg Prod.snd htaken
    rw [scanFresh_nil] at hbehind
    obtain rfl : [] = behind := congrArg Scan.lexemes hbehind
    exact .comment (isCommentMark_iff.mp hmark) rfl
  · rename_i hdigit
    obtain ⟨rfl, htaken, _⟩ := Piece.ofKind_eq_iff.mp h
    obtain rfl : c = '.' := ‹c = '.'›
    have hnumber := isNumber_taken_point hdigit
    rw [htaken] at hnumber
    refine shape_number hstop hbehind hnumber fun u hne hu hlonger => ?_
    exact absurd hlonger (not_isNumber_append_point hne hu htaken)
  · rename_i hdigit
    obtain ⟨rfl, htaken, _⟩ := Piece.ofKind_eq_iff.mp h
    obtain rfl : c = '.' := ‹c = '.'›
    obtain ⟨letters, point, rfl, hletters, hpoint⟩ := exists_of_dotOperator htaken
    refine .dotOperator hletters (hpoint.imp_right fun hnone => ⟨hnone.1, ?_⟩) ?_
    · exact forall_next? hstop hbehind (p := fun d => Unicode.isAlphabetic d = false ∧ d ≠ '.')
        (by decide) (by decide) hnone.2
    · rw [concat_behind hbehind, ← List.append_assoc]
      refine forall_head?_append hstop (p := fun d => d.isDigit = false) (by decide) (by decide) ?_
      intro d hd
      rw [hd] at hdigit
      exact Bool.eq_false_iff.mpr hdigit
  · exact shape_punctuation hstop hbehind ‹c ∈ punctuation› h

end Behind

end Line

/-- Every lexeme of a line that starts outside a string has the shape of its kind, and it is as long
as that shape allows. -/
theorem shape_of_scanLine {line : Text} {s : ScannedLine} (h : scanLine none line = .ok s)
    {before after : List Lexeme} {l : Lexeme} (hl : s.lexemes = before ++ l :: after) :
    Shape l after := by
  obtain ⟨lexemes, o⟩ := s
  obtain ⟨front, hfront, hlexemes⟩ := Line.scanLine_none_eq_ok.mp h
  obtain rfl : lexemes = before ++ l :: after := hl
  have hstop := Line.terminator_cases line
  rcases List.eq_nil_or_concat after with rfl | ⟨behind, e, rfl⟩
  · obtain ⟨_, hend⟩ := List.append_inj' hlexemes rfl
    obtain rfl := List.singleton_inj.mp hend
    exact .lineEnd hstop
  · rw [List.concat_eq_append, ← List.cons_append, ← List.append_assoc] at hlexemes
    obtain ⟨rfl, hend⟩ := List.append_inj' hlexemes rfl
    obtain rfl := List.singleton_inj.mp hend
    obtain ⟨u, _, _, hu⟩ := Line.exists_rest_of_scanFresh hfront
    obtain ⟨r, _, _, _, hfirst, hbehind⟩ := Line.exists_of_scanFresh_cons hu
    rw [List.concat_eq_append]
    exact Line.shape_of_first? hstop hbehind hfirst

/-- The digits in front of a dotted operator, and the string behind which only a mark and a blank
stand on its line. -/
theorem shape_of_scanLine_of_comparison :
    scanLine none "1.eq.2.5e-3_k//'a''b&&\t\n".toList = .ok
      ⟨[⟨.number, ['1']⟩, ⟨.dotOperator, ".eq.".toList⟩, ⟨.number, "2.5e-3_k".toList⟩,
        ⟨.operator, "//".toList⟩, ⟨.string, "'a''b&".toList⟩, Line.marker, ⟨.whitespace, ['\t']⟩,
        ⟨.lineEnd, ['\n']⟩], some '\''⟩ ∧
    Shape ⟨.number, ['1']⟩ [⟨.dotOperator, ".eq.".toList⟩, ⟨.number, "2.5e-3_k".toList⟩,
      ⟨.operator, "//".toList⟩, ⟨.string, "'a''b&".toList⟩, Line.marker, ⟨.whitespace, ['\t']⟩,
      ⟨.lineEnd, ['\n']⟩] ∧
    Shape ⟨.string, "'a''b&".toList⟩ [Line.marker, ⟨.whitespace, ['\t']⟩, ⟨.lineEnd, ['\n']⟩] := by
  have hscan : scanLine none "1.eq.2.5e-3_k//'a''b&&\t\n".toList = .ok
      ⟨[] ++ ⟨.number, ['1']⟩ :: [⟨.dotOperator, ".eq.".toList⟩, ⟨.number, "2.5e-3_k".toList⟩,
        ⟨.operator, "//".toList⟩, ⟨.string, "'a''b&".toList⟩, Line.marker, ⟨.whitespace, ['\t']⟩,
        ⟨.lineEnd, ['\n']⟩], some '\''⟩ := by decide +kernel
  refine ⟨hscan, shape_of_scanLine hscan rfl, ?_⟩
  have hsplit : [] ++ ⟨.number, ['1']⟩ :: [⟨.dotOperator, ".eq.".toList⟩,
      ⟨.number, "2.5e-3_k".toList⟩, ⟨.operator, "//".toList⟩, ⟨.string, "'a''b&".toList⟩,
      Line.marker, ⟨.whitespace, ['\t']⟩, ⟨.lineEnd, ['\n']⟩] =
      [⟨.number, ['1']⟩, ⟨.dotOperator, ".eq.".toList⟩, ⟨.number, "2.5e-3_k".toList⟩,
        ⟨.operator, "//".toList⟩] ++ ⟨.string, "'a''b&".toList⟩ ::
          [Line.marker, ⟨.whitespace, ['\t']⟩, ⟨.lineEnd, ['\n']⟩] := rfl
  exact shape_of_scanLine hscan hsplit

end FreeForm
