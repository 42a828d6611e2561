import FreeForm.Proofs.Scan.Rescan
import FreeForm.Proofs.Scan.Characters

namespace FreeForm

/-!
# Reading the quotes of a line

Whether a line leaves a string open can be told without its lexemes, by an automaton that reads the
content of the line character by character and knows of nothing but quotes and comment marks. The
scanner looks at quotes only where a lexeme starts; this is enough, for no character of a name, a
number or an operator is a quote or starts a comment. In a string the two take the same steps, and a
string left open is one in which the automaton meets the trailing continuation mark.
-/

open Lexeme

/-- Where the automaton is: outside strings, in a string, behind a delimiter in a string that may be
the first of two, or in a comment. -/
inductive QuoteState where
  | outside
  | inside (q : Char)
  | atDelimiter (q : Char)
  | commented
  deriving DecidableEq, Repr

namespace QuoteState

def start : Option Char → QuoteState
  | none => outside
  | some q => inside q

/-- What a character outside of strings leads to. -/
def enter (c : Char) : QuoteState :=
  if Line.isQuote c then inside c
  else if Line.isCommentMark c then commented
  else outside

def step : QuoteState → Char → QuoteState
  | outside, c => enter c
  | inside q, c => if c = q then atDelimiter q else inside q
  | atDelimiter q, c => if c = q then inside q else enter c
  | commented, _ => commented

/-- Whether the automaton, started in `σ`, is in a string with delimiter `q` at a continuation mark
of the text that has nothing but blanks behind it. -/
def LeavesOpen (σ : QuoteState) (t : Text) (q : Char) : Prop :=
  ∃ front blanks, t = front ++ continuationMark :: blanks ∧ blanks.all isBlank = true ∧
    front.foldl step σ = inside q

def delimiter? : QuoteState → Option Char
  | inside q => some q
  | _ => none

/-- The delimiter of the string that the automaton is in at the trailing continuation mark. -/
def openAt : QuoteState → Text → Option Char
  | _, [] => none
  | σ, c :: t =>
      if c = continuationMark ∧ t.all isBlank then σ.delimiter? else openAt (σ.step c) t

theorem openAt_cons {c : Char} {t : Text} (h : ¬(c = continuationMark ∧ t.all isBlank = true))
    (σ : QuoteState) : σ.openAt (c :: t) = (σ.step c).openAt t :=
  if_neg h

theorem delimiter?_eq_some_iff {σ : QuoteState} {q : Char} :
    σ.delimiter? = some q ↔ σ = inside q := by
  cases σ <;> simp [delimiter?]

theorem openAt_eq_some_iff {σ : QuoteState} {t : Text} {q : Char} :
    σ.openAt t = some q ↔ σ.LeavesOpen t q := by
  induction t generalizing σ with
  | nil => simp [openAt, LeavesOpen]
  | cons c t ih =>
      by_cases hmark : c = continuationMark ∧ t.all isBlank = true
      · rw [openAt, if_pos hmark, delimiter?_eq_some_iff]
        constructor
        · intro hσ
          exact ⟨[], t, by rw [hmark.1, List.nil_append], hmark.2, hσ⟩
        · rintro ⟨front, blanks, heq, _, hfront⟩
          cases front with
          | nil => exact hfront
          | cons d front =>
              -- a second mark would be among the blanks
              have hmem : continuationMark ∈ t := by
                rw [(List.cons.inj heq).2]
                simp
              have hblank := List.all_eq_true.mp hmark.2 _ hmem
              cases hblank
      · rw [openAt_cons hmark, ih]
        constructor
        · rintro ⟨front, blanks, rfl, hblanks, hfront⟩
          exact ⟨c :: front, blanks, rfl, hblanks, hfront⟩
        · rintro ⟨front, blanks, heq, hblanks, hfront⟩
          cases front with
          | nil =>
              obtain ⟨rfl, rfl⟩ := List.cons.inj heq
              exact absurd ⟨rfl, hblanks⟩ hmark
          | cons d front =>
              obtain ⟨rfl, rfl⟩ := List.cons.inj heq
              exact ⟨front, blanks, rfl, hblanks, hfront⟩

theorem openAt_blanks (σ : QuoteState) {t : Text} (h : t.all isBlank = true) :
    σ.openAt t = none := by
  cases hopen : σ.openAt t with
  | none => rfl
  | some q =>
      obtain ⟨front, blanks, rfl, _⟩ := openAt_eq_some_iff.mp hopen
      simp [isBlank, continuationMark] at h

theorem openAt_commented (t : Text) : commented.openAt t = none := by
  induction t with
  | nil => rfl
  | cons c t ih =>
      rw [openAt]
      split
      · rfl
      · exact ih

/-- Outside of strings a mark is a character like any other. -/
theorem openAt_outside_cons (c : Char) (t : Text) :
    outside.openAt (c :: t) = (enter c).openAt t := by
  rw [openAt]
  split
  · rename_i hmark
    exact (openAt_blanks _ hmark.2).symm
  · rfl

/-- Characters that are no quotes and no comment marks are passed over. -/
theorem openAt_outside_append {t : Text} (ht : ∀ c ∈ t, enter c = outside) (u : Text) :
    outside.openAt (t ++ u) = outside.openAt u := by
  induction t with
  | nil => rfl
  | cons c t ih =>
      obtain ⟨hc, ht⟩ := List.forall_mem_cons.mp ht
      rw [List.cons_append, openAt_outside_cons, hc, ih ht]

/-- Behind a delimiter that is not doubled the automaton is outside of strings. -/
theorem openAt_atDelimiter {q : Char} {t : Text} (ht : t.head? ≠ some q) :
    (atDelimiter q).openAt t = outside.openAt t := by
  cases t with
  | nil => rfl
  | cons c t =>
      have hc : c ≠ q := fun hc => ht (congrArg some hc)
      have hstep : (atDelimiter q).step c = enter c := if_neg hc
      rw [openAt, openAt, hstep]
      rfl

/-- The automaton is led through a string as the string is read. -/
theorem openAt_inside {q : Char} (hq : q = '\'' ∨ q = '"') (t : Text) :
    (inside q).openAt t = if (readQuotation q t).continued then some q
      else outside.openAt (readQuotation q t).rest := by
  have hmark : ∀ u : Text, ¬(q = continuationMark ∧ u.all isBlank = true) :=
    fun u h => quote_ne_mark hq h.1
  have hdelimiter : ∀ u, (inside q).openAt (q :: u) = (atDelimiter q).openAt u := by
    intro u
    rw [openAt_cons (hmark u), step, if_pos rfl]
  fun_induction readQuotation q t with
  | case1 => rfl
  | case2 c rest h =>
      rw [openAt, if_pos h]
      rfl
  | case3 => exact hdelimiter []
  | case4 rest _ ih =>
      have hdoubled : (atDelimiter q).step q = inside q := if_pos rfl
      rw [hdelimiter, openAt_cons (hmark rest), hdoubled]
      exact ih
  | case5 d rest hd =>
      have hhead : (d :: rest).head? ≠ some q := fun heq => hd (Option.some.inj heq)
      exact (hdelimiter (d :: rest)).trans (openAt_atDelimiter hhead)
  | case6 c rest hc hne ih =>
      have hstep : (inside q).step c = inside q := if_neg hne
      rw [openAt_cons hc, hstep]
      exact ih

end QuoteState

namespace Line

open QuoteState

theorem enter_of_isWordy {c : Char} (hc : isWordy c = true) : enter c = outside := by
  have hquote : ¬isQuote c = true := by
    intro hquote
    rcases isQuote_iff.mp hquote with rfl | rfl <;> cases hc
  have hmark : ¬isCommentMark c = true := by
    intro hmark
    rcases isCommentMark_iff.mp hmark with rfl | rfl <;> cases hc
  rw [enter, if_neg hquote, if_neg hmark]

/-- No character of a lexeme other than a string or a comment is a quote or starts a comment. -/
theorem enter_of_mem {t : Text} {p : Piece} (h : Piece.first? t = some p)
    (hstring : p.lexeme.kind ≠ .string) (hcomment : p.lexeme.kind ≠ .comment) :
    ∀ c ∈ p.lexeme.text, enter c = outside := by
  by_cases hdivisible : IsDivisible p.lexeme.kind
  · exact fun c hc => enter_of_isWordy (isWordy_of_mem hdivisible h c hc)
  · cases t with
    | nil => cases h
    | cons c rest =>
        simp only [Piece.first?, Piece.ofCons?] at h
        repeat' split at h
        all_goals simp only [Option.some.injEq, reduceCtorEq] at h
        all_goals subst h
        · intro d hd
          have hblank := List.all_eq_true.mp (List.all_takeWhile (l := c :: rest)) d hd
          rcases isBlank_iff.mp hblank with rfl | rfl <;> rfl
        · exact absurd rfl hstring
        · exact absurd (.inl rfl) hdivisible
        · exact absurd (.inr (.inl rfl)) hdivisible
        · exact absurd rfl hcomment
        · exact absurd (.inr (.inl rfl)) hdivisible
        · exact absurd (.inr (.inr (.inl rfl))) hdivisible
        · rcases Piece.ofPunctuation_cases c rest with hone | ⟨_, _, _, htwo⟩
          · rw [hone]
            intro d hd
            obtain rfl := List.mem_singleton.mp hd
            rw [enter, if_neg ‹_›, if_neg ‹_›]
          · rw [htwo] at hdivisible
            exact absurd (.inr (.inr (.inr rfl))) hdivisible

theorem eq_nil_of_first?_comment {c : Char} {rest : Text} {p : Piece}
    (h : Piece.first? (c :: rest) = some p) (hkind : p.lexeme.kind = .comment) :
    isCommentMark c = true ∧ p.rest = [] := by
  simp only [Piece.first?, Piece.ofCons?] at h
  repeat' split at h
  all_goals simp only [Option.some.injEq, reduceCtorEq] at h
  all_goals subst h
  iterate 4
    · cases hkind
  · exact ⟨‹_›, rfl⟩
  iterate 2
    · cases hkind
  · rcases Piece.ofPunctuation_cases c rest with hone | ⟨_, _, _, htwo⟩
    · have hcomment : punctuationKind c = .comment := by rwa [hone] at hkind
      rcases punctuationKind_cases c with hk | hk | hk <;> simp [hk] at hcomment
    · rw [htwo] at hkind
      cases hkind

theorem enter_of_isCommentMark {c : Char} (hc : isCommentMark c = true) :
    enter c = commented := by
  rcases isCommentMark_iff.mp hc with rfl | rfl <;> rfl

/-- Outside of strings the scanner and the automaton leave the same string open. -/
theorem openAt_scanFresh {t : Text} (h : (scanFresh (fun _ => none) t).rest = []) :
    outside.openAt t = (scanFresh (fun _ => none) t).openDelimiter := by
  fun_induction scanFresh (fun _ => none) t with
  | case1 t hfirst =>
      obtain rfl : t = [] := h
      rfl
  | case2 t p hfirst ih =>
      have happ := Piece.first?_append hfirst
      obtain ⟨l, r, o⟩ := p
      dsimp only at happ ih h
      subst happ
      have hrest : outside.openAt r = (scanFresh (fun _ => none) r).openDelimiter := ih h
      change _ = (o <|> (scanFresh (fun _ => none) r).openDelimiter)
      rw [← hrest]
      by_cases hstring : l.kind = .string
      · obtain ⟨q, t, hq, rfl, hread, ho⟩ := exists_of_first?_string hfirst hstring
        have henter : enter q = inside q := by rcases hq with rfl | rfl <;> rfl
        rw [List.cons_append, openAt_outside_cons, henter, openAt_inside hq, hread]
        cases o with
        | none => rfl
        | some q' =>
            rw [ho rfl]
            rfl
      · obtain rfl : o = none := by
          by_contra hopened
          exact hstring (opened_of_first? hfirst hopened).1
        by_cases hcomment : l.kind = .comment
        · obtain ⟨c, u, hcons⟩ := List.exists_cons_of_ne_nil (Piece.first?_text_ne_nil hfirst)
          dsimp only at hcons
          rw [hcons, List.cons_append] at hfirst ⊢
          obtain ⟨hc, hnil⟩ := eq_nil_of_first?_comment hfirst hcomment
          obtain rfl : r = [] := hnil
          rw [openAt_outside_cons, enter_of_isCommentMark hc, openAt_commented]
          rfl
        · rw [openAt_outside_append (enter_of_mem hfirst hstring hcomment)]
          rfl

/-- What the automaton reads: in a carried string the text behind the continuation mark that the
text starts with, blanks apart, if it does, and else all of it. -/
def resumed : Option Char → Text → Text
  | none, t => t
  | some _, t =>
      match t.dropWhile isBlank with
      | [] => t
      | c :: rest => if c = continuationMark then rest else t

theorem resumption_eq_resumed (q : Char) (t : Text) : (resumption t).2 = resumed (some q) t := by
  rw [resumption, resumed]
  cases t.dropWhile isBlank with
  | nil => rfl
  | cons c rest => by_cases hc : c = continuationMark <;> simp [hc]

/-- In a carried string, too, the scanner and the automaton leave the same string open. -/
theorem openAt_scanCarried {q : Char} (hq : q = '\'' ∨ q = '"') {t : Text}
    (hopen : isBlankOrComment t = false) (h : (scanCarried (fun _ => none) q t).rest = []) :
    (inside q).openAt (resumed (some q) t) =
      (scanCarried (fun _ => none) q t).openDelimiter := by
  rw [← resumption_eq_resumed, openAt_inside hq]
  simp only [scanCarried, hopen, Bool.false_eq_true, if_false] at h ⊢
  have hrest := openAt_scanFresh (t := (readQuotation q (resumption t).2).rest) h
  rw [hrest]
  change _ = ((if (readQuotation q (resumption t).2).continued then some q else none) <|> _)
  split <;> rfl

end Line

theorem openDelimiter_of_scanLine {carried : Option Char} {line : Text} {s : ScannedLine}
    (h : scanLine carried line = .ok s) :
    (Line.scan (fun _ => none) carried (Line.body line)).rest = [] ∧
      s.openDelimiter = (Line.scan (fun _ => none) carried (Line.body line)).openDelimiter := by
  unfold scanLine scanLineWith ScannedLine.ofScan at h
  split at h
  · rename_i hrest
    cases h
    exact ⟨hrest, rfl⟩
  · cases h

/-- A string stays open across a blank line, a comment and a directive. Any other line that scans
leaves open the string that the automaton is in at the trailing continuation mark, started outside
of strings or, in a carried string, behind the mark that resumes it. -/
theorem openDelimiter_iff {carried : Option Char} (hcarried : ∀ q ∈ carried, q = '\'' ∨ q = '"')
    {line : Text} {s : ScannedLine} (hscan : scanLine carried line = .ok s) (q : Char) :
    s.openDelimiter = some q ↔
      (carried = some q ∧ Line.isBlankOrComment (Line.body line) = true) ∨
      (¬(carried.isSome = true ∧ Line.isBlankOrComment (Line.body line) = true) ∧
        (QuoteState.start carried).LeavesOpen (Line.resumed carried (Line.body line)) q) := by
  obtain ⟨hrest, hopened⟩ := openDelimiter_of_scanLine hscan
  rw [hopened]
  generalize Line.body line = t at hrest ⊢
  rw [← QuoteState.openAt_eq_some_iff]
  cases carried with
  | none =>
      have hfresh := Line.openAt_scanFresh (t := t) hrest
      simp [QuoteState.start, Line.resumed, hfresh, Line.scan]
  | some q' =>
      have hq := hcarried q' rfl
      cases hopen : Line.isBlankOrComment t with
      | true => simp [Line.scan, Line.scanCarried, hopen]
      | false =>
          have hagree := Line.openAt_scanCarried hq hopen hrest
          simp [QuoteState.start, hagree, Line.scan]

/-- A carried string is closed behind a doubled delimiter, and the string left open at the end is
another one. -/
theorem openDelimiter_iff_of_two_strings :
    ∃ s, scanLine (some '"') " \t&a\"\"b\" // 'it''s & &\t\n".toList = .ok s ∧
      s.openDelimiter = some '\'' ∧
      (QuoteState.inside '"').LeavesOpen "a\"\"b\" // 'it''s & &\t".toList '\'' := by
  have hcarried : ∀ q ∈ some '"', q = '\'' ∨ q = '"' := by
    rintro q hq
    exact Or.inr (Option.some.inj hq).symm
  obtain ⟨s, hs, hopen⟩ := exists_of_map_toOption (f := ScannedLine.openDelimiter)
    (x := scanLine (some '"') " \t&a\"\"b\" // 'it''s & &\t\n".toList) (b := some '\'')
    (by decide +kernel)
  rcases (openDelimiter_iff hcarried hs '\'').mp hopen with ⟨hquote, _⟩ | ⟨_, hleaves⟩
  · exact absurd hquote (by decide)
  · exact ⟨s, hs, hopen, hleaves⟩

/-- In a comment within a carried string the automaton may find another string. -/
theorem not_openDelimiter_iff_in_comment : ¬∀ carried : Option Char,
    (∀ q ∈ carried, q = '\'' ∨ q = '"') → ∀ (line : Text) (s : ScannedLine) (q : Char),
    '\n' ∉ line.dropLast → scanLine carried line = .ok s →
    (s.openDelimiter = some q ↔
      (carried = some q ∧ Line.isBlankOrComment (Line.body line) = true) ∨
      (QuoteState.start carried).LeavesOpen (Line.resumed carried (Line.body line)) q) := by
  intro h
  have hcarried : ∀ q ∈ some '\'', q = '\'' ∨ q = '"' := by
    rintro q hq
    exact Or.inl (Option.some.inj hq).symm
  have hscan : scanLine (some '\'') "!'\"&".toList = .ok
      ⟨[⟨.comment, "!'\"&".toList⟩, ⟨.lineEnd, []⟩], some '\''⟩ := by decide +kernel
  have hleaves : (QuoteState.start (some '\'')).LeavesOpen
      (Line.resumed (some '\'') (Line.body "!'\"&".toList)) '"' :=
    QuoteState.openAt_eq_some_iff.mp (by decide)
  have hopen := (h _ hcarried _ _ '"' (by decide) hscan).mpr (.inr hleaves)
  revert hopen
  decide

end FreeForm
