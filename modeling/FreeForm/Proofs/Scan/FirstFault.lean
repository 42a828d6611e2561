import FreeForm.Proofs.Scan.Faults
import FreeForm.Proofs.Scan.Rescan
import Mathlib.Data.List.Basic

namespace FreeForm

/-!
# What decides that a line does not scan

A line does not scan because of the first character that starts no lexeme, and nothing behind that
character has a say in it: what stands in front of it is scanned as it would be alone, however far
ahead a number, a dotted operator or a string looks.
-/

open Lexeme

/-- The characters that no lexeme starts with. -/
structure StartsNothing (c : Char) : Prop where
  blank : c ≠ ' ' ∧ c ≠ '\t'
  quote : c ≠ '\'' ∧ c ≠ '"'
  name : Unicode.isAlphabetic c = false ∧ c ≠ '_'
  digit : c.isDigit = false
  comment : c ≠ '!' ∧ c ≠ '#'
  point : c ≠ '.'
  punctuation : c ∉ Line.punctuation

namespace Line

theorem first?_eq_none_iff {c : Char} {rest : Text} :
    Piece.first? (c :: rest) = none ↔ StartsNothing c := by
  constructor
  · intro h
    simp only [Piece.first?, Piece.ofCons?] at h
    repeat' split at h
    all_goals simp only [reduceCtorEq] at h
    rename_i hblank hquote hname hdigit hcomment hpoint hpunctuation
    rw [isBlank_iff, not_or] at hblank
    rw [isQuote_iff, not_or] at hquote
    rw [isNameStart, Bool.or_eq_true, not_or, Bool.not_eq_true, beq_iff_eq] at hname
    rw [isCommentMark_iff, not_or] at hcomment
    exact ⟨hblank, hquote, hname, Bool.eq_false_iff.mpr hdigit, hcomment, hpoint, hpunctuation⟩
  · intro h
    have hblank : isBlank c = false := by simp [isBlank, h.blank]
    have hquote : isQuote c = false := by simp [isQuote, h.quote]
    have hname : isNameStart c = false := by simp [isNameStart, h.name]
    have hcomment : isCommentMark c = false := by simp [isCommentMark, directiveMark, h.comment]
    simp [Piece.first?, Piece.ofCons?, hblank, hquote, hname, h.digit, hcomment, h.point,
      h.punctuation]

/-- What such a character follows opens a dotted operator by itself or not at all. -/
theorem opensDotOperator_of_startsNothing {c : Char} (hc : StartsNothing c) {s t : Text}
    (hs : ∀ d ∈ s.head?, d = c) (h : opensDotOperator (t ++ s) = true) :
    opensDotOperator t = true := by
  refine opensDotOperator_of_append (fun d hd => ?_) h
  rw [hs d hd]
  exact ⟨hc.name.1, hc.point⟩

/-- Lexemes are read again where nothing stands behind them. -/
theorem Reads.alone {t r : Text} {ls : List Lexeme} (h : Reads t ls r) (hr : r ≠ []) :
    Reads (concat ls) ls [] := by
  induction h with
  | nil => exact .nil []
  | @cons l ls rest r hfirst hrest ih =>
      have halone := ih hr
      rw [concat_cons]
      refine .cons ?_ halone
      cases ls with
      | nil =>
          cases hrest with
          | nil =>
              by_cases hkind : l.kind = .string
              · obtain ⟨q, t, hq, rfl, hread, _⟩ := exists_of_first?_string hfirst hkind
                obtain ⟨w, hw, rfl, _⟩ := behind_of_readQuotation hread hr
                exact first?_quote hq ((Cut.behind hw).readQuotation hq .nothing)
              · rw [concat_nil, List.append_nil]
                exact first?_alone hfirst hkind
      | cons m ls =>
          have hrun : concat (m :: ls) ≠ [] := by
            cases hrest with
            | cons hm _ =>
                rw [concat_cons]
                exact List.append_ne_nil_of_left_ne_nil (Piece.first?_text_ne_nil hm) _
          have hbehind := hrest.eq_append
          refine first?_again hfirst ?_ ?_ ?_ ?_
          · rw [hbehind]
            exact List.append_ne_nil_of_left_ne_nil hrun r
          · rw [hbehind]
            exact (List.head?_append_of_ne_nil _ hrun).symm
          · intro _ hopens
            have hagain := hrest.opens (s := []) hopens
            rwa [List.append_nil] at hagain
          · intro z _ hopens
            rw [hbehind, ← List.append_assoc]
            exact opensDotOperator_append hopens r

/-- A line feed is the last character of no lexeme that another character follows. -/
theorem getLast?_ne_of_first? {l : Lexeme} {r : Text} {o : Option Char}
    (h : Piece.first? (l.text ++ r) = some ⟨l, r, o⟩) (ho : o = none) (hr : r ≠ []) :
    l.text.getLast? ≠ some '\n' := by
  intro hlast
  have hmem : '\n' ∈ l.text := List.mem_of_getLast? hlast
  by_cases hkind : l.kind = .string
  · subst ho
    obtain ⟨q, t, hq, rfl, hread, _⟩ := exists_of_first?_string h hkind
    obtain ⟨w, _, rfl, _⟩ := behind_of_readQuotation hread hr
    rw [← List.cons_append, List.getLast?_concat] at hlast
    rcases hq with rfl | rfl <;> cases hlast
  obtain ⟨k, text⟩ := l
  obtain ⟨c, t, rfl⟩ := List.exists_cons_of_ne_nil (Piece.first?_text_ne_nil h)
  by_cases hdivisible : IsDivisible k
  · cases isWordy_of_mem hdivisible h _ hmem
  simp only [List.cons_append, Piece.first?, Piece.ofCons?] at h
  repeat' split at h
  all_goals simp only [Option.some.injEq, reduceCtorEq] at h
  · obtain ⟨_, htaken, _⟩ := Piece.ofKind_eq_iff.mp h
    cases (Pattern.many_eq_iff (t := c :: t).mp htaken).1 _ hmem
  · exact absurd (congrArg (·.lexeme.kind) h).symm hkind
  · exact absurd (.inl (Piece.ofKind_eq_iff.mp h).1.symm) hdivisible
  · exact absurd (.inr (.inl (Piece.ofKind_eq_iff.mp h).1.symm)) hdivisible
  · -- nothing stands behind a comment
    obtain ⟨_, htaken, _⟩ := Piece.ofKind_eq_iff.mp h
    exact hr (congrArg Prod.snd htaken).symm
  · exact absurd (.inr (.inl (Piece.ofKind_eq_iff.mp h).1.symm)) hdivisible
  · exact absurd (.inr (.inr (.inl (Piece.ofKind_eq_iff.mp h).1.symm))) hdivisible
  · rename_i hpunctuation
    rcases Piece.ofPunctuation_cases c (t ++ r) with hone | ⟨_, _, _, htwo⟩
    · rw [hone] at h
      obtain ⟨_, htaken, _⟩ := Piece.ofKind_eq_iff.mp h
      obtain rfl : [] = t := (List.cons.inj (congrArg Prod.fst htaken)).2
      obtain rfl := List.mem_singleton.mp hmem
      simp [punctuation] at hpunctuation
    · rw [htwo] at h
      exact absurd (.inr (.inr (.inr (Piece.ofKind_eq_iff.mp h).1.symm))) hdivisible

theorem Reads.getLast?_ne {t r : Text} {ls : List Lexeme} (h : Reads t ls r) (hr : r ≠ []) :
    (concat ls).getLast? ≠ some '\n' := by
  rcases List.eq_nil_or_concat ls with rfl | ⟨front, l, rfl⟩
  · simp
  · rw [List.concat_eq_append] at h ⊢
    obtain ⟨u, _, hlast⟩ := h.exists_of_append
    cases hlast with
    | cons hfirst hnil =>
        cases hnil with
        | nil =>
            obtain ⟨c, text, hc⟩ := List.exists_cons_of_ne_nil (Piece.first?_text_ne_nil hfirst)
            have hne := getLast?_ne_of_first? hfirst rfl hr
            dsimp only at hc
            rw [concat_append, concat_cons, concat_nil, List.append_nil, List.getLast?_append, hc]
            rw [hc] at hne
            simpa using hne

/-- Up to the character that stops it a scan reads whole lexemes. -/
theorem exists_reads_of_rest {t : Text} {c : Char} {r : Text}
    (h : (scanFresh (fun _ => none) t).rest = c :: r) :
    ∃ ls, Reads t ls (c :: r) ∧ StartsNothing c := by
  fun_induction scanFresh (fun _ => none) t with
  | case1 t hfirst =>
      obtain rfl : t = c :: r := h
      exact ⟨[], .nil _, first?_eq_none_iff.mp hfirst⟩
  | case2 t p hfirst ih =>
      obtain ⟨l, rest, opened⟩ := p
      obtain ⟨ls, hreads, hc⟩ := ih h
      cases opened with
      | none =>
          obtain rfl := Piece.first?_append hfirst
          exact ⟨l :: ls, .cons hfirst hreads, hc⟩
      | some q =>
          -- behind a string that is left open a line is scanned to its end
          obtain ⟨_, trailing, hmark, htrailing⟩ := opened_of_first? hfirst (Option.some_ne_none q)
          have hend : (scanFresh (fun _ => none) rest).rest = c :: r := h
          dsimp only at hmark
          rw [hmark, scanFresh_mark, scanFresh_blanks htrailing] at hend
          cases hend

/-- What stands in front of the character that stops a scan is read again at the end of a text and
in front of the same character. -/
theorem Reads.front_again {t r s : Text} {c : Char} {ls : List Lexeme} (h : Reads t ls (c :: r))
    (hc : StartsNothing c) (hs : ∀ d ∈ s.head?, d = c) : Reads (concat ls ++ s) ls s := by
  cases s with
  | nil =>
      rw [List.append_nil]
      exact h.alone (List.cons_ne_nil c r)
  | cons d s =>
      obtain rfl := hs d rfl
      have hsame : ∀ u, ∀ e ∈ (d :: u : Text).head?, e = d :=
        fun u e he => (Option.some.inj he).symm
      refine h.again (List.cons_ne_nil d r) rfl ?_ ?_
      · intro _ _ _ hopens
        cases opensDotOperator_of_startsNothing (t := []) hc (hsame r) hopens
      · intro z _ hopens
        exact opensDotOperator_append (opensDotOperator_of_startsNothing hc (hsame s) hopens) _

section Carried

theorem dropWhile_append {x : Text} (hx : x.all isBlank = false) (y : Text) :
    ∃ c rest, x.dropWhile isBlank = c :: rest ∧
      (x ++ y).dropWhile isBlank = c :: (rest ++ y) ∧
      (x ++ y).takeWhile isBlank = x.takeWhile isBlank := by
  induction x with
  | nil => cases hx
  | cons b x ih =>
      by_cases hb : isBlank b = true
      · rw [List.all_cons, hb, Bool.true_and] at hx
        obtain ⟨c, rest, hdrop, hbehind, htake⟩ := ih hx
        refine ⟨c, rest, ?_, ?_, ?_⟩
        · rw [List.dropWhile_cons_of_pos hb, hdrop]
        · rw [List.cons_append, List.dropWhile_cons_of_pos hb, hbehind]
        · rw [List.cons_append, List.takeWhile_cons_of_pos hb, List.takeWhile_cons_of_pos hb, htake]
      · refine ⟨b, x, ?_, ?_, ?_⟩
        · rw [List.dropWhile_cons_of_neg hb]
        · rw [List.cons_append, List.dropWhile_cons_of_neg hb]
        · rw [List.cons_append, List.takeWhile_cons_of_neg hb, List.takeWhile_cons_of_neg hb]

theorem isBlankOrComment_append {x : Text} (hx : x.all isBlank = false) (y : Text) :
    isBlankOrComment (x ++ y) = isBlankOrComment x := by
  obtain ⟨c, rest, hdrop, hbehind, _⟩ := dropWhile_append hx y
  rw [isBlankOrComment, isBlankOrComment, hdrop, hbehind]
  rfl

theorem resumption_append_right {x : Text} (hx : x.all isBlank = false) (y : Text) :
    resumption (x ++ y) = ((resumption x).1, (resumption x).2 ++ y) := by
  obtain ⟨c, rest, hdrop, hbehind, htake⟩ := dropWhile_append hx y
  simp only [resumption, hdrop, hbehind, htake]
  split <;> rfl

/-- A line that leaves an open string open is scanned to its end. -/
theorem rest_of_isBlankOrComment {t : Text} (h : isBlankOrComment t = true) :
    (scanFresh (fun _ => none) t).rest = [] := by
  cases hdrop : t.dropWhile isBlank with
  | nil =>
      have hblank : t.all isBlank = true := by
        rw [← List.takeWhile_append_dropWhile (p := isBlank) (l := t), hdrop, List.append_nil]
        exact List.all_takeWhile
      rw [scanFresh_blanks hblank]
  | cons c rest =>
      have hc : isCommentMark c = true := by simpa [isBlankOrComment, hdrop] using h
      rw [scanFresh_of_comment hdrop hc]

variable {q : Char} {t : Text}

/-- A line that goes on with a string and stops behind it closes it. -/
theorem exists_closed_of_scanCarried {c : Char} {r : Text}
    (h : (scanCarried (fun _ => none) q t).rest = c :: r) :
    isBlankOrComment t = false ∧ ∃ w rest, Within q w ∧
      readQuotation q (resumption t).2 = ⟨w ++ [q], rest, false⟩ ∧ rest.head? ≠ some q ∧
      (scanFresh (fun _ => none) rest).rest = c :: r := by
  have hopen : isBlankOrComment t = false := by
    rw [Bool.eq_false_iff]
    intro hopen
    have hend : (scanFresh (fun _ => none) t).rest = c :: r := by
      simpa [scanCarried, hopen] using h
    rw [rest_of_isBlankOrComment hopen] at hend
    cases hend
  refine ⟨hopen, ?_⟩
  generalize hread : readQuotation q (resumption t).2 = read
  obtain ⟨text, rest, continued⟩ := read
  have hrest : (scanFresh (fun _ => none) rest).rest = c :: r := by
    simpa [scanCarried, hopen, hread, Scan.after, Piece.ofQuotation] using h
  cases continued with
  | true =>
      -- behind the mark a line is scanned to its end
      have hmark := readQuotation_rest_of_continued (congrArg Quotation.continued hread)
      rw [hread] at hmark
      obtain ⟨trailing, hmark, htrailing⟩ := hmark
      dsimp only at hmark
      rw [hmark, scanFresh_mark, scanFresh_blanks htrailing] at hrest
      cases hrest
  | false =>
      have hne : rest ≠ [] := by
        rintro rfl
        rw [scanFresh_nil] at hrest
        cases hrest
      obtain ⟨w, hw, rfl, hhead⟩ := behind_of_readQuotation hread hne
      exact ⟨w, rest, hw, rfl, hhead, hrest⟩

/-- The front of a line that goes on with a string, up to the delimiter that closes it, is scanned
as before in front of another text. -/
theorem exists_front_of_closed (hq : q = '\'' ∨ q = '"') (hopen : isBlankOrComment t = false)
    {w rest : Text} (hw : Within q w)
    (hread : readQuotation q (resumption t).2 = ⟨w ++ [q], rest, false⟩) :
    ∃ front ls, t = front ++ [q] ++ rest ∧ ∀ s, s.head? ≠ some q →
      scanCarried (fun _ => none) q (front ++ [q] ++ s) =
        (scanFresh (fun _ => none) s).after ls none := by
  have hcontent : w ++ [q] ++ rest = (resumption t).2 := by
    have happ := readQuotation_append q (resumption t).2
    rwa [hread] at happ
  have ht : t = concat (resumption t).1 ++ w ++ [q] ++ rest := by
    have happ := resumption_append t
    rw [← hcontent] at happ
    simpa using happ.symm
  generalize hfront : concat (resumption t).1 ++ w ++ [q] = front at ht
  have hblank : front.all isBlank = false := by
    rw [← hfront]
    simp [isBlank_quote hq]
  have hresumption := resumption_append_right hblank rest
  rw [← ht] at hresumption
  have hclosed : (resumption front).2 = w ++ [q] :=
    List.append_cancel_right (hcontent.trans (congrArg Prod.snd hresumption)).symm
  refine ⟨concat (resumption t).1 ++ w,
    (resumption t).1 ++ [⟨.string, w ++ [q]⟩].filter (!·.text.isEmpty), ?_, ?_⟩
  · rw [hfront]
    exact ht
  · intro s hs
    have hagain : readQuotation q (w ++ [q] ++ s) = ⟨w ++ [q], s, false⟩ := by
      rw [List.append_assoc, List.singleton_append, readQuotation_behind hq hw hs]
    have hopen' : isBlankOrComment (front ++ s) = false := by
      rw [isBlankOrComment_append hblank, ← isBlankOrComment_append hblank rest, ← ht, hopen]
    rw [hfront, scanCarried, hopen', resumption_append_right hblank, hclosed, hagain, hresumption]
    rfl

end Carried

/-- What stands in front of the character that stops a scan is scanned as before at the end of a
text and in front of the same character. -/
theorem exists_front_of_rest {carried : Option Char} (hcarried : ∀ q ∈ carried, q = '\'' ∨ q = '"')
    {t : Text} {c : Char} {r : Text} (h : (scan (fun _ => none) carried t).rest = c :: r) :
    ∃ front ls, t = front ++ c :: r ∧ StartsNothing c ∧ front.getLast? ≠ some '\n' ∧
      ∀ s, (∀ d ∈ s.head?, d = c) →
        scan (fun _ => none) carried (front ++ s) =
          (scanFresh (fun _ => none) s).after ls none := by
  cases carried with
  | none =>
      obtain ⟨ls, hreads, hc⟩ := exists_reads_of_rest h
      refine ⟨concat ls, ls, hreads.eq_append, hc, hreads.getLast?_ne (List.cons_ne_nil c r), ?_⟩
      intro s hs
      exact (hreads.front_again hc hs).scanFresh
  | some q =>
      have hq := hcarried q rfl
      obtain ⟨hopen, w, rest, hw, hread, hhead, hrest⟩ := exists_closed_of_scanCarried h
      obtain ⟨front, ls, rfl, hscan⟩ := exists_front_of_closed hq hopen hw hread
      obtain ⟨ms, hreads, hc⟩ := exists_reads_of_rest hrest
      refine ⟨front ++ [q] ++ concat ms, ls ++ ms, ?_, hc, ?_, ?_⟩
      · rw [hreads.eq_append]
        simp
      · have hlast := hreads.getLast?_ne (List.cons_ne_nil c r)
        rw [List.getLast?_append]
        cases hms : (concat ms).getLast? with
        | none =>
            rw [List.getLast?_concat]
            rcases hq with rfl | rfl <;> simp
        | some d =>
            rw [hms] at hlast
            exact hlast
      · intro s hs
        have hagain := hreads.front_again hc hs
        have hnext : (concat ms ++ s).head? ≠ some q := by
          cases hms : concat ms with
          | nil =>
              intro hhead'
              obtain rfl := hs q hhead'
              exact hc.quote.elim fun h₁ h₂ => hq.elim h₁ h₂
          | cons d text =>
              rw [hreads.eq_append, hms] at hhead
              exact hhead
        rw [List.append_assoc, scan, hscan _ hnext, hagain.scanFresh]
        simp [Scan.after]

end Line

theorem scanLine_eq_error {carried : Option Char} {line : Text} {e : LexError} :
    scanLine carried line = .error e ↔ ∃ c r,
      (Line.scan (fun _ => none) carried (Line.body line)).rest = c :: r ∧
        e = .unexpectedCharacter c 0 ((Line.body line).length - r.length) := by
  unfold scanLine scanLineWith ScannedLine.ofScan
  cases (Line.scan (fun _ => none) carried (Line.body line)).rest with
  | nil => simp
  | cons c r => simp [eq_comm]

/-- The character at a column of a line decides that the line fails: it starts no lexeme, the
content in front of it scans, and every line whose content starts with the same characters up to it
fails with the same error. -/
structure LexError.DecidedAt (e : LexError) (carried : Option Char) (line : Text) (c : Char)
    (column : Nat) : Prop where
  error : e = .unexpectedCharacter c 0 column
  pos : 1 ≤ column
  le : column ≤ (Line.body line).length
  char : (Line.body line)[column - 1]? = some c
  strange : StartsNothing c
  front : ∃ s, scanLine carried ((Line.body line).take (column - 1)) = .ok s
  alike : ∀ other, (Line.body line).take column <+: Line.body other →
    scanLine carried other = .error e

/-- Whatever a line starts in, it fails for the text up to a character. -/
theorem scanLine_error_decided {carried : Option Char} (hcarried : ∀ q ∈ carried, q = '\'' ∨ q = '"')
    {line : Text} {e : LexError} (h : scanLine carried line = .error e) :
    ∃ c column, e.DecidedAt carried line c column := by
  obtain ⟨c, r, hrest, rfl⟩ := scanLine_eq_error.mp h
  obtain ⟨front, ls, hbody, hc, hlast, hscan⟩ := Line.exists_front_of_rest hcarried hrest
  have hlength : ∀ u : Text, (front ++ c :: u).length - u.length = front.length + 1 := by
    intro u
    rw [List.length_append, List.length_cons]
    omega
  refine ⟨c, front.length + 1, ?_, Nat.le_add_left 1 _, ?_, ?_, hc, ?_, ?_⟩
  · rw [hbody, hlength r]
  · simp [hbody]
  · simp [hbody]
  · have hempty := hscan [] (by simp)
    rw [List.append_nil, Line.scanFresh_nil] at hempty
    refine ⟨⟨ls ++ [⟨.lineEnd, Line.terminator front⟩], none⟩, ?_⟩
    rw [hbody, Nat.add_sub_cancel, List.take_left, scanLine, scanLineWith,
      Line.body_of_getLast? hlast, hempty]
    simp [ScannedLine.ofScan, Line.Scan.after]
  · rintro other ⟨u, hu⟩
    have hother : Line.body other = front ++ c :: u := by
      rw [← hu, hbody, List.take_length_add_append, List.take_succ_cons, List.take_zero,
        List.append_assoc, List.singleton_append]
    refine scanLine_eq_error.mpr ⟨c, u, ?_, ?_⟩
    · rw [hother, hscan (c :: u) (by simp), Line.scanFresh_of_none (Line.first?_eq_none_iff.mpr hc)]
      rfl
    · rw [hbody, hother, hlength r, hlength u]

/-- Behind a string that goes on and a number whose point could open a dotted operator, a character
that starts no lexeme fails two lines that differ behind it. -/
theorem scanLine_error_decided_behind_string :
    scanLine (some '\'') "&b''c'//1.e^.5&\n".toList =
      .error (.unexpectedCharacter '^' 0 12) ∧
    (∃ c column, LexError.DecidedAt (.unexpectedCharacter '^' 0 12) (some '\'')
      "&b''c'//1.e^.5&\n".toList c column) ∧
    scanLine (some '\'') "&b''c'//1.e^'".toList = .error (.unexpectedCharacter '^' 0 12) := by
  have hscan : scanLine (some '\'') "&b''c'//1.e^.5&\n".toList =
      .error (.unexpectedCharacter '^' 0 12) := by decide +kernel
  obtain ⟨c, column, h⟩ := scanLine_error_decided (by simp) hscan
  obtain ⟨rfl, _, rfl⟩ := LexError.unexpectedCharacter.inj h.error
  exact ⟨hscan, ⟨_, _, h⟩, h.alike _ (by decide +kernel)⟩

end FreeForm
