import FreeForm.Proofs.Scan.DirectiveLine

namespace FreeForm

/-!
# Strings that go on

String content in which every delimiter is doubled reads as content as far as it goes, whatever
stands behind it. When it is cut within a doubled delimiter, its first part reads as a closed string
and its second one as a string that opens. So the parts of a literal are scanned one by one, each on
a line of its own, and whatever is put together of them is again scanned as one string, unless it
seems to end with a continuation mark.
-/

namespace Lexeme

/-- Content whose delimiters are all doubled. -/
inductive Within (q : Char) : Text → Prop
  | nil : Within q []
  | plain {c : Char} {t : Text} (hc : c ≠ q) (h : Within q t) : Within q (c :: t)
  | doubled {t : Text} (h : Within q t) : Within q (q :: q :: t)

/-- What was read of a literal, without the delimiter that opens it, and the delimiter of the string
that is still open behind it. -/
inductive Cut (q : Char) : Text → Option Char → Prop
  | within {t : Text} (h : Within q t) : Cut q t (some q)
  | behind {t : Text} (h : Within q t) : Cut q (t ++ [q]) none

theorem within_of_not_mem {q : Char} {t : Text} (ht : q ∉ t) : Within q t := by
  induction t with
  | nil => exact .nil
  | cons c t ih =>
      obtain ⟨hc, ht⟩ := not_or.mp (mt List.mem_cons.mpr ht)
      exact .plain (Ne.symm hc) (ih ht)

theorem Within.append {q : Char} {t u : Text} (ht : Within q t) (hu : Within q u) :
    Within q (t ++ u) := by
  induction ht with
  | nil => exact hu
  | plain hc _ ih => exact .plain hc ih
  | doubled _ ih => exact .doubled ih

theorem Within.of_append {q : Char} {t u : Text} (ht : Within q t) (h : Within q (t ++ u)) :
    Within q u := by
  induction ht with
  | nil => exact h
  | @plain c t hc _ ih =>
      generalize heq : c :: t ++ u = v at h
      cases h with
      | nil => cases heq
      | plain _ h =>
          obtain ⟨_, rfl⟩ := List.cons.inj heq
          exact ih h
      | doubled h =>
          obtain ⟨rfl, _⟩ := List.cons.inj heq
          exact absurd rfl hc
  | @doubled t _ ih =>
      generalize heq : q :: q :: t ++ u = v at h
      cases h with
      | nil => cases heq
      | plain hc _ =>
          obtain ⟨rfl, _⟩ := List.cons.inj heq
          exact absurd rfl hc
      | doubled h =>
          obtain ⟨_, hrest⟩ := List.cons.inj heq
          obtain ⟨_, rfl⟩ := List.cons.inj hrest
          exact ih h

/-- Behind content the next part of a literal starts as the literal would. -/
theorem Within.cut_of_append {q : Char} {t u : Text} (ht : Within q t) (hu : u ≠ [])
    {o : Option Char} (h : Cut q (t ++ u) o) : Cut q u o := by
  generalize heq : t ++ u = v at h
  cases h with
  | within h =>
      rw [← heq] at h
      exact .within (ht.of_append h)
  | @behind w h =>
      rcases List.eq_nil_or_concat u with rfl | ⟨front, last, rfl⟩
      · exact absurd rfl hu
      · rw [List.concat_eq_append, ← List.append_assoc] at heq
        obtain ⟨rfl, hlast⟩ := List.append_inj' heq rfl
        rw [List.concat_eq_append, hlast]
        exact .behind (ht.of_append h)

/-- Behind one half of a doubled delimiter the next part starts with the other half. -/
theorem cut_of_half {q : Char} {t u : Text} (ht : Within q t) (hu : u ≠ []) {o : Option Char}
    (h : Cut q (t ++ [q] ++ u) o) : ∃ v, u = q :: v ∧ Cut q v o := by
  rw [List.append_assoc] at h
  have hbehind : Cut q (q :: u) o := ht.cut_of_append (List.cons_ne_nil q u) h
  generalize heq : q :: u = v at hbehind
  cases hbehind with
  | within hw =>
      cases hw with
      | nil => cases heq
      | plain hc _ =>
          obtain ⟨rfl, _⟩ := List.cons.inj heq
          exact absurd rfl hc
      | doubled hw =>
          obtain ⟨_, rfl⟩ := List.cons.inj heq
          exact ⟨_, rfl, .within hw⟩
  | behind hw =>
      cases hw with
      | nil =>
          obtain ⟨_, rfl⟩ := List.cons.inj heq
          exact absurd rfl hu
      | plain hc _ =>
          obtain ⟨rfl, _⟩ := List.cons.inj heq
          exact absurd rfl hc
      | doubled hw =>
          obtain ⟨_, rfl⟩ := List.cons.inj heq
          exact ⟨_, rfl, .behind hw⟩

theorem readQuotation_mark {q : Char} {blanks : Text} (h : blanks.all isBlank = true) :
    readQuotation q (continuationMark :: blanks) = ⟨[], continuationMark :: blanks, true⟩ := by
  rw [readQuotation.eq_def]
  simp [h]

theorem readQuotation_cons {q c : Char} (hc : c ≠ q) {t : Text}
    (hmark : ¬(c = continuationMark ∧ t.all isBlank = true)) :
    readQuotation q (c :: t) = (readQuotation q t).cons c := by
  rw [readQuotation.eq_def]
  simp only [if_neg hmark, if_neg hc]

theorem readQuotation_doubled {q : Char} {t : Text}
    (hmark : ¬(q = continuationMark ∧ (q :: t).all isBlank = true)) :
    readQuotation q (q :: q :: t) = ((readQuotation q t).cons q).cons q := by
  rw [readQuotation.eq_def]
  simp only [if_neg hmark, if_pos]

theorem readQuotation_closed {q : Char} (hq : q ≠ continuationMark) {t : Text}
    (ht : t.head? ≠ some q) : readQuotation q (q :: t) = ⟨[q], t, false⟩ := by
  have hmark : ¬(q = continuationMark ∧ t.all isBlank = true) := fun h => hq h.1
  rw [readQuotation.eq_def]
  simp only [if_neg hmark, if_pos]
  cases t with
  | nil => rfl
  | cons d t =>
      have hd : d ≠ q := fun hd => ht (congrArg some hd)
      simp only [if_neg hd]

theorem readQuotation_within {q : Char} {t : Text} (ht : Within q t) {u : Text}
    (hu : ∀ w, continuationMark :: w <:+ t → (w ++ u).all isBlank = false) :
    readQuotation q (t ++ u) =
      { readQuotation q u with text := t ++ (readQuotation q u).text } := by
  induction ht with
  | nil => rfl
  | @plain c t hc _ ih =>
      have hrest := ih fun w hw => hu w (hw.trans (List.suffix_cons c t))
      have hmark : ¬(c = continuationMark ∧ (t ++ u).all isBlank = true) := by
        rintro ⟨rfl, hblank⟩
        rw [hu t (List.suffix_refl _)] at hblank
        cases hblank
      rw [List.cons_append, readQuotation_cons hc hmark, hrest]
      rfl
  | @doubled t _ ih =>
      have hrest := ih fun w hw =>
        hu w (hw.trans ((List.suffix_cons q t).trans (List.suffix_cons q _)))
      have hmark : ¬(q = continuationMark ∧ (q :: (t ++ u)).all isBlank = true) := by
        rintro ⟨rfl, hblank⟩
        rw [← List.cons_append, hu _ (List.suffix_refl _)] at hblank
        cases hblank
      rw [List.cons_append, List.cons_append, readQuotation_doubled hmark, hrest]
      rfl

/-- What may stand behind a part of a literal on its line: a trailing continuation mark, or nothing
if the literal is complete. -/
inductive Trails : Text → Option Char → Prop
  | mark {blanks : Text} (h : blanks.all isBlank = true) (o : Option Char) :
      Trails (continuationMark :: blanks) o
  | nothing : Trails [] none

section Quote

variable {q : Char} (hq : q = '\'' ∨ q = '"')
include hq

theorem quote_ne_mark : q ≠ continuationMark := by
  rcases hq with rfl | rfl <;> decide

theorem isBlank_quote : isBlank q = false := by
  rcases hq with rfl | rfl <;> rfl

theorem Trails.head?_ne {u : Text} {o : Option Char} (h : Trails u o) : u.head? ≠ some q := by
  cases h with
  | mark h o =>
      intro hhead
      exact quote_ne_mark hq (Option.some.inj hhead).symm
  | nothing =>
      intro hhead
      cases hhead

/-- A closed part is read as far as its delimiter. -/
theorem readQuotation_behind {t : Text} (ht : Within q t) {u : Text} (hu : u.head? ≠ some q) :
    readQuotation q (t ++ q :: u) = ⟨t ++ [q], u, false⟩ := by
  have hmark : ∀ w, continuationMark :: w <:+ t → (w ++ q :: u).all isBlank = false := by
    intro w _
    simp [isBlank_quote hq]
  rw [readQuotation_within ht hmark, readQuotation_closed (quote_ne_mark hq) hu]

theorem Cut.readQuotation {t : Text} {o : Option Char} (ht : Cut q t o) {u : Text}
    (hu : Trails u o) :
    Line.Piece.ofQuotation q (Lexeme.readQuotation q (t ++ u)) = ⟨⟨.string, t⟩, u, o⟩ := by
  have hhead := hu.head?_ne hq
  cases ht with
  | within ht =>
      cases hu with
      | @mark blanks hblanks o =>
          have hmark : ∀ w, continuationMark :: w <:+ t →
              (w ++ continuationMark :: blanks).all isBlank = false := by
            intro w _
            simp [isBlank, continuationMark]
          rw [readQuotation_within ht hmark, readQuotation_mark hblanks]
          simp [Line.Piece.ofQuotation]
  | @behind t ht =>
      rw [List.append_assoc, List.singleton_append, readQuotation_behind hq ht hhead]
      rfl

end Quote

end Lexeme

namespace Line

open Lexeme

/-- Whether nothing at the end of a text would be read as the end of a line: no continuation mark
with only blanks behind it, and no carriage return. -/
def EndsPlain (t : Text) : Prop :=
  (t.dropEndWhile isBlank).getLast? ≠ some continuationMark ∧ t.getLast? ≠ some '\r'

instance (t : Text) : Decidable (EndsPlain t) :=
  inferInstanceAs (Decidable (_ ∧ _))

theorem EndsPlain.all_isBlank {t w : Text} (h : EndsPlain t) (hw : continuationMark :: w <:+ t) :
    w.all isBlank = false := by
  rw [Bool.eq_false_iff]
  intro hblank
  apply h.1
  obtain ⟨front, rfl⟩ := hw
  have hall : ∀ c ∈ w.reverse, isBlank c = true := by
    intro c hc
    exact List.all_eq_true.mp hblank c (List.mem_reverse.mp hc)
  have hleft : (front ++ continuationMark :: w).reverse.dropWhile isBlank =
      continuationMark :: front.reverse := by
    rw [List.reverse_append, List.reverse_cons, List.append_assoc,
      List.dropWhile_append_of_pos hall]
    exact List.dropWhile_cons_of_neg (by decide)
  rw [Text.dropEndWhile, hleft, List.reverse_cons, List.reverse_reverse, List.getLast?_concat]

/-- The lexeme of some blanks, if there are any. -/
def blanks (t : Text) : List Lexeme :=
  [⟨.whitespace, t⟩].filter (!·.text.isEmpty)

theorem isWhitespace_of_mem_blanks {t : Text} : ∀ l ∈ blanks t, l.isWhitespace = true := by
  intro l hl
  rw [List.mem_singleton.mp (List.mem_filter.mp hl).1]
  rfl

theorem isLiminal_of_mem_blanks {t : Text} : ∀ l ∈ blanks t, l.isLiminal = true := by
  intro l hl
  rw [List.mem_singleton.mp (List.mem_filter.mp hl).1]
  rfl

/-- The lexeme of a continuation mark. -/
def marker : Lexeme := ⟨.continuation, [continuationMark]⟩

/-- The lexemes behind a part of a literal. -/
def trail : Text → List Lexeme
  | [] => []
  | _ :: rest => marker :: blanks rest

theorem scanFresh_blanks {t : Text} (h : t.all isBlank = true) :
    scanFresh (fun _ => none) t = ⟨blanks t, none, []⟩ := by
  cases t with
  | nil => exact scanFresh_nil
  | cons c rest =>
      have hc : isBlank c = true := by
        rw [List.all_cons, Bool.and_eq_true] at h
        exact h.1
      have hall : ∀ d ∈ c :: rest, isBlank d = true := List.all_eq_true.mp h
      have htaken : ((c :: rest) ++ []).takeWhile isBlank = (c :: rest) ++ [] :=
        List.takeWhile_append_of_pos hall
      have hleft : ((c :: rest) ++ []).dropWhile isBlank = [] :=
        List.dropWhile_append_of_pos hall
      rw [List.append_nil] at htaken hleft
      have hfirst : Piece.first? (c :: rest) = some ⟨⟨.whitespace, c :: rest⟩, [], none⟩ := by
        simp only [Piece.first?, Piece.ofCons?, hc, if_true, Pattern.many, htaken, hleft]
        rfl
      rw [scanFresh_of_first? hfirst, scanFresh_nil]
      rfl

theorem scanFresh_indented {t : Text} (h : t.all isBlank = true) {c : Char}
    (hc : isBlank c = false) (rest : Text) :
    scanFresh (fun _ => none) (t ++ c :: rest) =
      (scanFresh (fun _ => none) (c :: rest)).after (blanks t) none := by
  cases t with
  | nil => rfl
  | cons b t =>
      have hall : ∀ d ∈ b :: t, isBlank d = true := List.all_eq_true.mp h
      have hb := hall b List.mem_cons_self
      have htaken : ((b :: t) ++ c :: rest).takeWhile isBlank = b :: t := by
        rw [List.takeWhile_append_of_pos hall, List.takeWhile_cons_of_neg (by simp [hc]),
          List.append_nil]
      have hleft : ((b :: t) ++ c :: rest).dropWhile isBlank = c :: rest := by
        rw [List.dropWhile_append_of_pos hall, List.dropWhile_cons_of_neg (by simp [hc])]
      have hfirst : Piece.first? ((b :: t) ++ c :: rest) =
          some ⟨⟨.whitespace, b :: t⟩, c :: rest, none⟩ := by
        rw [List.cons_append] at htaken hleft ⊢
        simp only [Piece.first?, Piece.ofCons?, hb, if_true, Pattern.many, htaken, hleft]
        rfl
      rw [scanFresh_of_first? hfirst]
      rfl

theorem first?_mark (t : Text) :
    Piece.first? (continuationMark :: t) = some ⟨marker, t, none⟩ := by
  cases t with
  | nil => rfl
  | cons c t =>
      have hpair : [continuationMark, c] ∉ pairs := by
        intro hmem
        simp [pairs, continuationMark] at hmem
      have hpunctuation : Piece.ofPunctuation continuationMark (c :: t) =
          ⟨marker, c :: t, none⟩ := by
        simp only [Piece.ofPunctuation, if_neg hpair]
        rfl
      rw [← hpunctuation]
      rfl

theorem scanFresh_mark (t : Text) :
    scanFresh (fun _ => none) (continuationMark :: t) =
      (scanFresh (fun _ => none) t).after [marker] none :=
  scanFresh_of_first? (first?_mark t)

theorem scanFresh_trails {t : Text} {o : Option Char} (h : Trails t o) :
    scanFresh (fun _ => none) t = ⟨trail t, none, []⟩ := by
  cases h with
  | mark h o =>
      rw [scanFresh_mark, scanFresh_blanks h]
      rfl
  | nothing => exact scanFresh_nil

section Quote

variable {q : Char} (hq : q = '\'' ∨ q = '"')
include hq

theorem first?_quote {t u : Text} {o : Option Char}
    (h : Piece.ofQuotation q (readQuotation q (t ++ u)) = ⟨⟨.string, t⟩, u, o⟩) :
    Piece.first? (q :: (t ++ u)) = some ⟨⟨.string, q :: t⟩, u, o⟩ := by
  have hcons : Piece.ofQuotation q ((readQuotation q (t ++ u)).cons q) =
      ⟨⟨.string, q :: t⟩, u, o⟩ := by
    simp only [Piece.ofQuotation, Piece.mk.injEq, Lexeme.mk.injEq, true_and] at h
    obtain ⟨htext, hrest, hopened⟩ := h
    simp only [Piece.ofQuotation, Quotation.cons, htext, hrest, hopened]
  rw [← hcons]
  rcases hq with rfl | rfl <;> rfl

/-- The first part of a literal, with what stands behind it. -/
theorem scanFresh_literal {t u : Text} {o : Option Char} (ht : Cut q t o) (hu : Trails u o) :
    scanFresh (fun _ => none) (q :: (t ++ u)) = ⟨⟨.string, q :: t⟩ :: trail u, o, []⟩ := by
  rw [scanFresh_of_first? (first?_quote hq (ht.readQuotation hq hu)), scanFresh_trails hu]
  cases o <;> rfl

/-- A part of a literal on a line of its own: behind an open part the string goes on, and behind a
closed one another string is read. -/
theorem scan_part {t part u : Text} {o o' : Option Char} (ht : Cut q t o) (hpart : part ≠ [])
    (hnext : Cut q (t ++ part) o') (hu : Trails u o') {indent : Text}
    (hindent : indent.all isBlank = true) :
    scan (fun _ => none) o (indent ++ continuationMark :: (part ++ u)) =
      ⟨blanks indent ++ marker :: ⟨.string, part⟩ :: trail u, o', []⟩ := by
  cases ht with
  | @within t ht =>
      have hcut := ht.cut_of_append hpart hnext
      have hread := hcut.readQuotation hq hu
      have hall : ∀ d ∈ indent, isBlank d = true := List.all_eq_true.mp hindent
      have hleft : (indent ++ continuationMark :: (part ++ u)).dropWhile isBlank =
          continuationMark :: (part ++ u) := by
        rw [List.dropWhile_append_of_pos hall, List.dropWhile_cons_of_neg (by decide)]
      have htaken : (indent ++ continuationMark :: (part ++ u)).takeWhile isBlank = indent := by
        rw [List.takeWhile_append_of_pos hall, List.takeWhile_cons_of_neg (by decide),
          List.append_nil]
      have hopen : isBlankOrComment (indent ++ continuationMark :: (part ++ u)) = false := by
        rw [isBlankOrComment, hleft]
        rfl
      have hresumption : resumption (indent ++ continuationMark :: (part ++ u)) =
          (blanks indent ++ [marker], part ++ u) := by
        rw [resumption, hleft]
        dsimp only
        rw [if_pos rfl, htaken]
        cases indent <;> rfl
      simp only [scan, scanCarried, hopen, hresumption, hread, scanFresh_trails hu, Scan.after]
      have hfilled : [Lexeme.mk .string part].filter (!·.text.isEmpty) = [⟨.string, part⟩] := by
        obtain ⟨c, rest, rfl⟩ := List.exists_cons_of_ne_nil hpart
        rfl
      rw [hfilled]
      cases o' <;> simp
  | @behind t ht =>
      obtain ⟨part, rfl, hcut⟩ := cut_of_half ht hpart hnext
      rw [scan, List.cons_append, scanFresh_indented hindent (by decide), scanFresh_mark,
        scanFresh_literal hq hcut hu]
      cases o' <;> simp [Scan.after]

/-- An unfinished literal that does not end with a continuation mark is one string. -/
theorem scanFresh_within {t : Text} (ht : Within q t)
    (hmark : ∀ w, continuationMark :: w <:+ t → w.all isBlank = false) :
    scanFresh (fun _ => none) (q :: t) = ⟨[⟨.string, q :: t⟩], none, []⟩ := by
  have hread := readQuotation_within ht (u := []) fun w hw => by
    rw [List.append_nil]
    exact hmark w hw
  have hpiece : Piece.ofQuotation q (readQuotation q (t ++ [])) = ⟨⟨.string, t⟩, [], none⟩ := by
    rw [hread]
    simp [readQuotation, Piece.ofQuotation]
  have hfirst := first?_quote hq hpiece
  rw [List.append_nil] at hfirst
  rw [scanFresh_of_first? hfirst, scanFresh_nil]
  rfl

/-- What was put together of some parts is scanned as one string, without what follows it. -/
theorem scanFresh_joined {t : Text} {o : Option Char} (ht : Cut q t o)
    (hplain : EndsPlain (q :: t)) :
    scanFresh (fun _ => none) (q :: t) = ⟨[⟨.string, q :: t⟩], none, []⟩ := by
  cases ht with
  | @within t ht =>
      exact scanFresh_within hq ht fun w hw =>
        hplain.all_isBlank (hw.trans (List.suffix_cons q t))
  | @behind t ht =>
      have hscan := scanFresh_literal hq (.behind ht) .nothing
      rwa [List.append_nil] at hscan

end Quote

/-- A line is its content and its terminator. -/
theorem split_append_terminator {x t : Text} (hfeed : '\n' ∉ x) (hreturn : x.getLast? ≠ some '\r')
    (ht : t = [] ∨ t = ['\n'] ∨ t = ['\r', '\n']) : split (x ++ t) = (x, t) := by
  induction x with
  | nil => rcases ht with rfl | rfl | rfl <;> rfl
  | cons c x ih =>
      obtain ⟨hc, hfeed⟩ : '\n' ≠ c ∧ '\n' ∉ x := by simpa using hfeed
      have hlast : x.getLast? ≠ some '\r' := by
        intro hlast
        apply hreturn
        rw [List.getLast?_cons, hlast]
        rfl
      rw [List.cons_append, split.eq_4, ih hfeed hlast]
      · intro heq
        exact absurd heq.symm hc
      · rintro rfl heq
        -- a carriage return with the line feed of the terminator behind it
        cases x with
        | nil => exact hreturn rfl
        | cons d x =>
            obtain ⟨rfl, _⟩ := List.cons.inj heq
            simp at hfeed

theorem scanLine_append_feed {t : Text} (hfeed : '\n' ∉ t) (hreturn : t.getLast? ≠ some '\r')
    {carried o : Option Char} {lexemes : List Lexeme}
    (h : scan (fun _ => none) carried t = ⟨lexemes, o, []⟩) :
    scanLine carried (t ++ ['\n']) = .ok ⟨lexemes ++ [⟨.lineEnd, ['\n']⟩], o⟩ := by
  have hsplit := split_append_terminator hfeed hreturn (.inr (.inl rfl))
  simp only [scanLine, scanLineWith, body, terminator, hsplit, h, ScannedLine.ofScan]

end Line

end FreeForm
