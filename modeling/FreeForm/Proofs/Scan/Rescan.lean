import FreeForm.Proofs.Reader.Parts
import FreeForm.Proofs.Scan.LineRest

namespace FreeForm

/-!
# Scanning a run of lexemes again

What a run of lexemes spells is scanned as that run again, wherever the run starts and ends on its
line. Behind each lexeme the rest of a line is scanned as a line of its own. In front of the end of
a run each lexeme is read as far as before, for what it looks at is the next lexeme or nothing. One
lexeme does not bear the cut: a string that gave its trailing continuation mark to the line ends in
a mark once more if there were two, and alone it gives that mark away as well.
-/

open Lexeme

namespace Lexeme

/-- Whether a text ends with a continuation mark and blanks. -/
def EndsMarked (t : Text) : Prop :=
  ∃ front blanks, t = front ++ continuationMark :: blanks ∧ blanks.all isBlank = true

/-- Whether the last of some lexemes is a string that ends with a continuation mark and blanks. -/
def EndInMark (ls : List Lexeme) : Prop :=
  ∃ l ∈ ls.getLast?, l.kind = .string ∧ EndsMarked l.text

theorem not_endInMark_nil : ¬EndInMark [] := by
  rintro ⟨_, hlast, _⟩
  cases hlast

theorem endInMark_singleton (l : Lexeme) :
    EndInMark [l] ↔ l.kind = .string ∧ EndsMarked l.text := by
  simp [EndInMark]

theorem endInMark_cons_cons (l m : Lexeme) (ls : List Lexeme) :
    EndInMark (l :: m :: ls) ↔ EndInMark (m :: ls) := by
  rw [EndInMark, EndInMark, List.getLast?_cons_cons]

theorem not_endInMark_concat {ls : List Lexeme} {l : Lexeme} (hkind : l.kind ≠ .string) :
    ¬EndInMark (ls ++ [l]) := by
  rintro ⟨m, hm, hstring, _⟩
  rw [List.getLast?_concat] at hm
  obtain rfl := Option.some.inj hm
  exact hkind hstring

theorem Within.of_append_left {q : Char} {t u : Text} (hu : q ∉ u) (h : Within q (t ++ u)) :
    Within q t := by
  generalize heq : t ++ u = v at h
  induction h generalizing t with
  | nil =>
      obtain ⟨rfl, _⟩ := List.append_eq_nil_iff.mp heq
      exact .nil
  | @plain c v hc _ ih =>
      cases t with
      | nil => exact .nil
      | cons d t =>
          obtain ⟨rfl, hrest⟩ := List.cons.inj heq
          exact .plain hc (ih hrest)
  | @doubled v _ ih =>
      cases t with
      | nil => exact .nil
      | cons d t =>
          obtain ⟨rfl, hrest⟩ := List.cons.inj heq
          cases t with
          | nil =>
              -- the cut does not fall between the two
              apply absurd _ hu
              rw [show u = d :: v from hrest]
              exact List.mem_cons_self
          | cons e t =>
              obtain ⟨rfl, hbehind⟩ := List.cons.inj hrest
              exact .doubled (ih hbehind)

theorem Cut.cons {q c : Char} (hc : c ≠ q) {t : Text} {o : Option Char} (h : Cut q t o) :
    Cut q (c :: t) o := by
  cases h with
  | within h => exact .within (.plain hc h)
  | behind h => exact .behind (.plain hc h)

theorem Cut.doubled {q : Char} {t : Text} {o : Option Char} (h : Cut q t o) :
    Cut q (q :: q :: t) o := by
  cases h with
  | within h => exact .within (.doubled h)
  | behind h => exact .behind (.doubled h)

/-- What is read of a string is part of a literal, and open if the string is continued. -/
theorem exists_cut_of_readQuotation {q : Char} {x t r : Text} {continued : Bool}
    (h : readQuotation q x = ⟨t, r, continued⟩) :
    ∃ o, Cut q t o ∧ (continued = true → o = some q) := by
  fun_induction readQuotation q x generalizing t with
  | case1 =>
      cases h
      exact ⟨some q, .within .nil, fun _ => rfl⟩
  | case2 =>
      cases h
      exact ⟨some q, .within .nil, fun _ => rfl⟩
  | case3 =>
      cases h
      exact ⟨none, .behind .nil, fun hfalse => absurd hfalse Bool.false_ne_true⟩
  | case4 rest hmark ih =>
      obtain ⟨u, rfl, hu⟩ := Quotation.exists_of_cons h
      obtain ⟨v, rfl, hv⟩ := Quotation.exists_of_cons hu
      obtain ⟨o, hcut, ho⟩ := ih hv
      exact ⟨o, hcut.doubled, ho⟩
  | case5 =>
      cases h
      exact ⟨none, .behind .nil, fun hfalse => absurd hfalse Bool.false_ne_true⟩
  | case6 c rest hmark hc ih =>
      obtain ⟨u, rfl, hu⟩ := Quotation.exists_of_cons h
      obtain ⟨o, hcut, ho⟩ := ih hu
      exact ⟨o, hcut.cons hc, ho⟩

end Lexeme

namespace Line

section Quote

variable {q : Char} (hq : q = '\'' ∨ q = '"')
include hq

theorem quote_not_mem_marked {blanks : Text} (h : blanks.all isBlank = true) :
    q ∉ continuationMark :: blanks := by
  rintro hmem
  rcases List.mem_cons.mp hmem with hmark | hblank
  · exact quote_ne_mark hq hmark
  · have hq' := List.all_eq_true.mp h q hblank
    rw [isBlank_quote hq] at hq'
    cases hq'

/-- A string alone is scanned as that string, unless it has a mark to give away. -/
theorem exists_scanFresh_string {t : Text} {o : Option Char} (ht : Cut q t o) :
    ∃ ls o', scanFresh (fun _ => none) (q :: t) = ⟨ls, o', []⟩ ∧
      (ls = [⟨.string, q :: t⟩] ↔ ¬EndsMarked (q :: t)) := by
  cases ht with
  | @within t ht =>
      by_cases hend : EndsMarked (q :: t)
      · obtain ⟨front, trailing, heq, htrailing⟩ := hend
        cases front with
        | nil => exact absurd (List.cons.inj heq).1 (quote_ne_mark hq)
        | cons d front =>
            obtain ⟨rfl, rfl⟩ := List.cons.inj heq
            have hfront := ht.of_append_left (quote_not_mem_marked hq htrailing)
            have hscan := scanFresh_literal hq (.within hfront) (.mark htrailing (some q))
            refine ⟨_, _, hscan, ?_⟩
            constructor
            · intro hls
              cases (List.cons.inj hls).2
            · intro hplain
              exact absurd ⟨q :: front, trailing, rfl, htrailing⟩ hplain
      · have hmark : ∀ w, continuationMark :: w <:+ t → w.all isBlank = false := by
          rintro w ⟨front, rfl⟩
          apply Bool.eq_false_iff.mpr
          intro hw
          exact hend ⟨q :: front, w, rfl, hw⟩
        exact ⟨_, _, scanFresh_within hq ht hmark, iff_of_true rfl hend⟩
  | @behind t ht =>
      have hscan := scanFresh_literal hq (.behind ht) .nothing
      rw [List.append_nil] at hscan
      refine ⟨_, _, hscan, iff_of_true rfl ?_⟩
      rintro ⟨front, trailing, heq, htrailing⟩
      have hlast : [q] <:+ continuationMark :: trailing :=
        List.suffix_of_suffix_length_le ⟨q :: t, rfl⟩ ⟨front, heq.symm⟩ (by simp)
      exact quote_not_mem_marked hq htrailing (hlast.subset List.mem_cons_self)

end Quote

theorem punctuationKind_cases (c : Char) : punctuationKind c = .continuation ∨
    punctuationKind c = .separator ∨ punctuationKind c = .punctuation := by
  unfold punctuationKind
  split
  · exact Or.inl rfl
  · split
    · exact Or.inr (Or.inl rfl)
    · exact Or.inr (Or.inr rfl)

theorem Piece.ofPunctuation_cases (c : Char) (rest : Text) :
    ofPunctuation c rest = ofKind (punctuationKind c) ([c], rest) ∨
      ∃ d behind, rest = d :: behind ∧ ofPunctuation c rest = ofKind .operator ([c, d], behind) := by
  cases rest with
  | nil => exact Or.inl rfl
  | cons d behind =>
      by_cases hpair : [c, d] ∈ pairs
      · exact Or.inr ⟨d, behind, rfl, if_pos hpair⟩
      · exact Or.inl (if_neg hpair)

/-- A string starts with the quote that it is read up to. -/
theorem exists_of_first?_string {l : Lexeme} {r : Text} {o : Option Char}
    (h : Piece.first? (l.text ++ r) = some ⟨l, r, o⟩) (hkind : l.kind = .string) :
    ∃ q t, (q = '\'' ∨ q = '"') ∧ l = ⟨.string, q :: t⟩ ∧
      readQuotation q (t ++ r) = ⟨t, r, o.isSome⟩ ∧ (o.isSome = true → o = some q) := by
  obtain ⟨k, text⟩ := l
  obtain ⟨c, t, rfl⟩ := List.exists_cons_of_ne_nil (Piece.first?_text_ne_nil h)
  obtain rfl : k = .string := hkind
  simp only [List.cons_append, Piece.first?, Piece.ofCons?] at h
  repeat' split at h
  all_goals simp only [Option.some.injEq, reduceCtorEq] at h
  · cases (Piece.ofKind_eq_iff.mp h).1
  · rename_i hquote
    refine ⟨c, t, isQuote_iff.mp hquote, rfl, ?_⟩
    generalize readQuotation c (t ++ r) = read at h
    obtain ⟨text, rest, continued⟩ := read
    simp only [Piece.ofQuotation, Quotation.cons, Piece.mk.injEq, Lexeme.mk.injEq, true_and,
      List.cons.injEq] at h
    obtain ⟨rfl, rfl, rfl⟩ := h
    cases continued <;> simp
  iterate 5
    · cases (Piece.ofKind_eq_iff.mp h).1
  · rcases Piece.ofPunctuation_cases c (t ++ r) with hone | ⟨_, _, _, htwo⟩
    · rw [hone] at h
      have hstring := (Piece.ofKind_eq_iff.mp h).1
      rcases punctuationKind_cases c with hk | hk | hk <;> simp [hk] at hstring
    · rw [htwo] at h
      cases (Piece.ofKind_eq_iff.mp h).1

/-- A lexeme that is no string is a lexeme where nothing stands behind it. -/
theorem first?_alone {l : Lexeme} {r : Text} {o : Option Char}
    (h : Piece.first? (l.text ++ r) = some ⟨l, r, o⟩) (hkind : l.kind ≠ .string) :
    Piece.first? l.text = some ⟨l, [], none⟩ := by
  have hstops : Stops [] := by
    rintro c hc
    cases hc
  obtain ⟨k, text⟩ := l
  have hne := Piece.first?_text_ne_nil h
  dsimp only at h hkind hne ⊢
  by_cases hdivisible : IsDivisible k
  · have hwhole : Piece.first? (text ++ ([] ++ r)) = some ⟨⟨k, text ++ []⟩, r, o⟩ := by
      simpa using h
    obtain ⟨k', halone, _, hk⟩ := first?_front hdivisible hwhole hne hstops
    obtain rfl := hk rfl
    rwa [List.append_nil] at halone
  · obtain ⟨c, t, rfl⟩ := List.exists_cons_of_ne_nil hne
    simp only [List.cons_append, Piece.first?, Piece.ofCons?] at h ⊢
    repeat' split at h
    all_goals simp only [Option.some.injEq, reduceCtorEq] at h
    · obtain ⟨rfl, htaken, _⟩ := Piece.ofKind_eq_iff.mp h
      have halone := (Pattern.local_many (by decide)).again (t := c :: t) htaken (.inr hstops)
      rw [List.append_nil] at halone
      rw [if_pos ‹_›, halone]
      rfl
    · exact absurd (congrArg (·.lexeme.kind) h).symm hkind
    · exact absurd (.inl (Piece.ofKind_eq_iff.mp h).1.symm) hdivisible
    · exact absurd (.inr (.inl (Piece.ofKind_eq_iff.mp h).1.symm)) hdivisible
    · -- a comment reaches to the end as it is
      obtain ⟨rfl, htaken, _⟩ := Piece.ofKind_eq_iff.mp h
      simp only [*, if_true, if_false, Bool.false_eq_true]
      rfl
    · exact absurd (.inr (.inl (Piece.ofKind_eq_iff.mp h).1.symm)) hdivisible
    · exact absurd (.inr (.inr (.inl (Piece.ofKind_eq_iff.mp h).1.symm))) hdivisible
    · rcases Piece.ofPunctuation_cases c (t ++ r) with hone | ⟨_, _, _, htwo⟩
      · rw [hone] at h
        obtain ⟨rfl, htaken, _⟩ := Piece.ofKind_eq_iff.mp h
        obtain rfl : [] = t := (List.cons.inj (congrArg Prod.fst htaken)).2
        simp only [*, if_true, if_false, Bool.false_eq_true]
        rfl
      · rw [htwo] at h
        exact absurd (.inr (.inr (.inr (Piece.ofKind_eq_iff.mp h).1.symm))) hdivisible

/-- One lexeme of a line is scanned as itself, unless it is a string with a mark to give away. -/
theorem exists_scanFresh_alone {l : Lexeme} {r : Text} {o : Option Char}
    (h : Piece.first? (l.text ++ r) = some ⟨l, r, o⟩) :
    ∃ ls o', scanFresh (fun _ => none) l.text = ⟨ls, o', []⟩ ∧ (ls = [l] ↔ ¬EndInMark [l]) := by
  rw [endInMark_singleton]
  by_cases hkind : l.kind = .string
  · obtain ⟨q, t, hq, rfl, hread, _⟩ := exists_of_first?_string h hkind
    obtain ⟨o', hcut, _⟩ := exists_cut_of_readQuotation hread
    simpa using exists_scanFresh_string hq hcut
  · refine ⟨[l], none, ?_, iff_of_true rfl fun hstring => hkind hstring.1⟩
    rw [scanFresh_of_first? (first?_alone h hkind), scanFresh_nil]
    rfl

theorem exists_of_scanFresh_cons {t : Text} {l : Lexeme} {ls : List Lexeme} {o : Option Char}
    (h : scanFresh (fun _ => none) t = ⟨l :: ls, o, []⟩) :
    ∃ r opened o', t = l.text ++ r ∧ Piece.first? (l.text ++ r) = some ⟨l, r, opened⟩ ∧
      scanFresh (fun _ => none) r = ⟨ls, o', []⟩ := by
  obtain ⟨r, opened, rfl, hfirst, hlexemes⟩ := first?_of_scanFresh (congrArg Scan.lexemes h)
  rw [scanFresh_of_first? hfirst] at h
  have hleft : (scanFresh (fun _ => none) r).rest = [] := congrArg Scan.rest h
  refine ⟨r, opened, (scanFresh (fun _ => none) r).openDelimiter, rfl, hfirst, ?_⟩
  rw [← hlexemes, ← hleft]

/-- The rest of a text behind some of its lexemes is scanned as a text of its own. -/
theorem exists_rest_of_scanFresh {t : Text} {ls ms : List Lexeme} {o : Option Char}
    (h : scanFresh (fun _ => none) t = ⟨ls ++ ms, o, []⟩) :
    ∃ u o', t = concat ls ++ u ∧ scanFresh (fun _ => none) u = ⟨ms, o', []⟩ := by
  induction ls generalizing t o with
  | nil => exact ⟨t, o, rfl, h⟩
  | cons l ls ih =>
      obtain ⟨r, _, o', rfl, _, hrest⟩ := exists_of_scanFresh_cons h
      obtain ⟨u, o'', rfl, hu⟩ := ih hrest
      exact ⟨u, o'', by rw [concat_cons, List.append_assoc], hu⟩

/-- A lexeme is read again in front of what the next lexemes spell, without those behind them. -/
theorem first?_before_run {l m : Lexeme} {ms others : List Lexeme} {r : Text} {o o' : Option Char}
    (h : Piece.first? (l.text ++ r) = some ⟨l, r, o⟩)
    (hr : scanFresh (fun _ => none) r = ⟨m :: ms ++ others, o', []⟩) :
    Piece.first? (l.text ++ concat (m :: ms)) = some ⟨l, concat (m :: ms), o⟩ := by
  obtain ⟨u, _, hu, _⟩ := exists_rest_of_scanFresh hr
  obtain ⟨r', _, _, hm, hfirst, _⟩ := exists_of_scanFresh_cons hr
  have hne : concat (m :: ms) ≠ [] := by
    rw [concat_cons]
    exact List.append_ne_nil_of_left_ne_nil (Piece.first?_text_ne_nil hfirst) _
  cases o with
  | none =>
      apply first?_again h
      · rw [hu]
        exact List.append_ne_nil_of_left_ne_nil hne u
      · obtain ⟨c, rest, hcons⟩ := List.exists_cons_of_ne_nil hne
        rw [hu, hcons]
        rfl
      · intro _ hopens
        rw [hm] at hopens
        obtain ⟨letters, rfl, hletters, hall⟩ := exists_letters_of_opens hopens hfirst
        rw [concat_cons]
        exact opensDotOperator_append
          (opensDotOperator_iff.mpr ⟨letters, [], rfl, hletters, hall⟩) _
      · intro z _ hopens
        rw [hu, ← List.append_assoc]
        exact opensDotOperator_append hopens u
  | some q =>
      obtain ⟨hkind, trailing, hmark, htrailing⟩ := opened_of_first? h (Option.some_ne_none q)
      obtain ⟨q', t, hq, rfl, hread, ho⟩ := exists_of_first?_string h hkind
      obtain rfl : q = q' := Option.some.inj (ho rfl)
      obtain ⟨o'', hcut, hopen⟩ := exists_cut_of_readQuotation hread
      obtain rfl := hopen rfl
      dsimp only at hmark
      -- the lexemes behind are the mark and the first of its blanks
      rw [hmark, scanFresh_mark, scanFresh_blanks htrailing] at hr
      have hlexemes : marker :: blanks trailing = m :: (ms ++ others) := congrArg Scan.lexemes hr
      obtain ⟨rfl, hbehind⟩ := List.cons.inj hlexemes
      have hspelled : trailing = concat ms ++ concat others := by
        rw [← concat_append, ← hbehind, blanks, concat_filter_nonempty, concat_cons, concat_nil,
          List.append_nil]
      rw [hspelled, List.all_append, Bool.and_eq_true] at htrailing
      cases hcut with
      | within ht =>
          exact first?_quote hq ((Cut.within ht).readQuotation hq (.mark htrailing.1 (some q)))

/-- The first lexemes of a text are scanned again from what they spell, unless the last of them is a
string with a mark to give away. -/
theorem exists_scanFresh_run {t : Text} {run others : List Lexeme} {o : Option Char}
    (h : scanFresh (fun _ => none) t = ⟨run ++ others, o, []⟩) :
    ∃ ls o', scanFresh (fun _ => none) (concat run) = ⟨ls, o', []⟩ ∧
      (ls = run ↔ ¬EndInMark run) := by
  induction run generalizing t o with
  | nil => exact ⟨[], none, scanFresh_nil, iff_of_true rfl not_endInMark_nil⟩
  | cons l run ih =>
      obtain ⟨r, opened, o', rfl, hfirst, hrest⟩ := exists_of_scanFresh_cons h
      cases run with
      | nil =>
          rw [concat_cons, concat_nil, List.append_nil]
          exact exists_scanFresh_alone hfirst
      | cons m run =>
          obtain ⟨ls, o'', hrun, hiff⟩ := ih hrest
          have hagain := first?_before_run hfirst hrest
          refine ⟨l :: ls, opened <|> o'', ?_, ?_⟩
          · rw [concat_cons, scanFresh_of_first? hagain, hrun]
            rfl
          · rw [endInMark_cons_cons, ← hiff]
            exact ⟨fun heq => (List.cons.inj heq).2, congrArg (l :: ·)⟩

/-- The content of a physical line holds no line feed. -/
theorem feed_not_mem_body_of_dropLast {line : Text} (h : '\n' ∉ line.dropLast) :
    '\n' ∉ body line := by
  intro hmem
  apply h
  have hline := body_append_terminator line
  by_cases hend : terminator line = []
  · rcases List.eq_nil_or_concat line with rfl | ⟨front, last, rfl⟩
    · cases hmem
    · rw [hend, List.append_nil] at hline
      rw [List.concat_eq_append] at hmem hline hend ⊢
      rw [List.dropLast_concat]
      rw [hline] at hmem
      rcases List.mem_append.mp hmem with hfront | hlast
      · exact hfront
      · -- a line feed at the end would end the line
        obtain rfl := List.mem_singleton.mp hlast
        have hfeed := getLast?_terminator (List.getLast?_concat (l := front) (a := '\n'))
        rw [hend] at hfeed
        cases hfeed
  · rw [← hline, List.dropLast_append_of_ne_nil hend]
    exact List.mem_append_left _ hmem

/-- What is left of a line behind some of its lexemes is scanned as a line. -/
theorem exists_scanLine_rest {line : Text} {before run : List Lexeme} {e : Lexeme}
    {o : Option Char} (h : scanLine none line = .ok ⟨before ++ run ++ [e], o⟩) :
    e.kind = .lineEnd ∧ ∃ o', scanLine none (concat (run ++ [e])) = .ok ⟨run ++ [e], o'⟩ := by
  obtain ⟨front, hfront, hlexemes⟩ := scanLine_none_eq_ok.mp h
  obtain ⟨rfl, hend⟩ := List.append_inj' hlexemes rfl
  obtain rfl := List.singleton_inj.mp hend
  obtain ⟨u, o', hbody, hu⟩ := exists_rest_of_scanFresh hfront
  have hspelled : concat run = u := by
    have happ := scanFresh_append u
    rwa [hu, List.append_nil] at happ
  have hline : line = concat before ++ (u ++ terminator line) := by
    rw [← List.append_assoc, ← hbody, body_append_terminator]
  have hcut : body (concat before ++ (u ++ terminator line)) = concat before ++ u := by
    rw [← hline, hbody]
  obtain ⟨hrest, hterminator⟩ := body_of_append hcut
  rw [← hline] at hterminator
  refine ⟨rfl, o', ?_⟩
  rw [concat_append, hspelled, concat_cons, concat_nil, List.append_nil, scanLine_none_eq_ok, hrest,
    ← hterminator]
  exact ⟨run, hu, rfl⟩

/-- What some lexemes of a physical line in front of its line end spell is scanned as them. -/
theorem exists_scanLine_run {line : Text} (hphysical : '\n' ∉ line.dropLast)
    {before run after : List Lexeme} {e : Lexeme} {o : Option Char}
    (h : scanLine none line = .ok ⟨before ++ run ++ after ++ [e], o⟩) :
    ∃ ls o', scanLine none (concat run) = .ok ⟨ls ++ [⟨.lineEnd, []⟩], o'⟩ ∧
      (ls = run ↔ ¬EndInMark run) := by
  obtain ⟨front, hfront, hlexemes⟩ := scanLine_none_eq_ok.mp h
  obtain ⟨rfl, _⟩ := List.append_inj' hlexemes rfl
  rw [List.append_assoc] at hfront
  obtain ⟨u, _, hbody, hu⟩ := exists_rest_of_scanFresh hfront
  obtain ⟨u', _, hspelled, _⟩ := exists_rest_of_scanFresh hu
  obtain ⟨ls, o', hrun, hiff⟩ := exists_scanFresh_run hu
  have hfeed : '\n' ∉ concat run := by
    intro hmem
    apply feed_not_mem_body_of_dropLast hphysical
    rw [hbody, hspelled]
    exact List.mem_append_right _ (List.mem_append_left _ hmem)
  refine ⟨ls, o', ?_, hiff⟩
  rw [scanLine_none_eq_ok, body_of_not_mem hfeed, terminator_of_not_mem hfeed]
  exact ⟨ls, hrun, rfl⟩

end Line

/-- What a run of lexemes of a physical line spells scans, and it scans as that run, with an empty
line end behind it where the run stops short of the line end: but not if the run stops behind a
string that ends with a continuation mark and blanks. -/
theorem rescan_run {line : Text} (hphysical : '\n' ∉ line.dropLast) {s : ScannedLine}
    (hscan : scanLine none line = .ok s) {before run after : List Lexeme}
    (hrun : s.lexemes = before ++ run ++ after) :
    ∃ t, scanLine none (concat run) = .ok t ∧
      (t.lexemes = run ++ (if after = [] ∧ run ≠ [] then [] else [⟨.lineEnd, []⟩]) ↔
        ¬EndInMark run) := by
  obtain ⟨lexemes, o⟩ := s
  obtain rfl : lexemes = before ++ run ++ after := hrun
  rcases List.eq_nil_or_concat after with rfl | ⟨after, e, rfl⟩
  · rcases List.eq_nil_or_concat run with rfl | ⟨run, e, rfl⟩
    · exact ⟨⟨[⟨.lineEnd, []⟩], none⟩, by decide +kernel, iff_of_true rfl not_endInMark_nil⟩
    · rw [List.concat_eq_append] at hscan ⊢
      rw [List.append_nil, ← List.append_assoc] at hscan
      obtain ⟨hkind, o', hrest⟩ := Line.exists_scanLine_rest hscan
      have hnot : ¬EndInMark (run ++ [e]) := not_endInMark_concat (by simp [hkind])
      exact ⟨_, hrest, iff_of_true (by simp) hnot⟩
  · rw [List.concat_eq_append, ← List.append_assoc] at hscan
    obtain ⟨ls, o', hscanned, hiff⟩ := Line.exists_scanLine_run hphysical hscan
    refine ⟨_, hscanned, ?_⟩
    rw [if_neg (by simp), List.append_left_inj, hiff]

/-- The front of a line up to a name, and the rest of it, in which a string that ends with a mark has
the trailing one behind it. -/
theorem rescan_run_of_two_marks :
    '\n' ∉ "1.eq.x*'a''&&\t\n".toList.dropLast ∧
    (∃ t, scanLine none "1.eq.x".toList = .ok t ∧
      t.lexemes = [⟨.number, ['1']⟩, ⟨.dotOperator, ".eq.".toList⟩, ⟨.name, ['x']⟩, ⟨.lineEnd, []⟩]) ∧
    ∃ t, scanLine none "*'a''&&\t\n".toList = .ok t ∧
      t.lexemes = [⟨.punctuation, ['*']⟩, ⟨.string, "'a''&".toList⟩, Line.marker,
        ⟨.whitespace, ['\t']⟩, ⟨.lineEnd, ['\n']⟩] := by
  have hphysical : '\n' ∉ "1.eq.x*'a''&&\t\n".toList.dropLast := by decide
  have hscan : scanLine none "1.eq.x*'a''&&\t\n".toList = .ok
      ⟨[] ++ [⟨.number, ['1']⟩, ⟨.dotOperator, ".eq.".toList⟩, ⟨.name, ['x']⟩] ++
        [⟨.punctuation, ['*']⟩, ⟨.string, "'a''&".toList⟩, Line.marker, ⟨.whitespace, ['\t']⟩,
          ⟨.lineEnd, ['\n']⟩], some '\''⟩ := by decide +kernel
  have hfront : ¬EndInMark ([⟨.number, ['1']⟩, ⟨.dotOperator, ".eq.".toList⟩] ++
      [⟨.name, ['x']⟩]) :=
    not_endInMark_concat (by decide)
  have hrest : ¬EndInMark ([⟨.punctuation, ['*']⟩, ⟨.string, "'a''&".toList⟩, Line.marker,
      ⟨.whitespace, ['\t']⟩] ++ [⟨.lineEnd, ['\n']⟩]) :=
    not_endInMark_concat (by decide)
  obtain ⟨t, ht, hiff⟩ := rescan_run hphysical hscan rfl
  obtain ⟨u, hu, hiff'⟩ := rescan_run hphysical hscan (List.append_nil _).symm
  exact ⟨hphysical, ⟨t, ht, hiff.mpr hfront⟩, u, hu, hiff'.mpr hrest⟩

/-- The string of `'&&` that has given one mark to its line gives the other one away when it is
scanned alone. -/
theorem not_rescan_string_cut_off : ¬∀ (line : Text) (s : ScannedLine)
    (before run after : List Lexeme), '\n' ∉ line.dropLast → scanLine none line = .ok s →
    s.lexemes = before ++ run ++ after →
    ∃ t, scanLine none (concat run) = .ok t ∧
      t.lexemes = run ++ (if after = [] ∧ run ≠ [] then [] else [⟨.lineEnd, []⟩]) := by
  intro h
  have hwhole : scanLine none "'&&".toList = .ok
      ⟨[⟨.string, "'&".toList⟩, Line.marker, ⟨.lineEnd, []⟩], some '\''⟩ := by decide +kernel
  have halone : scanLine none "'&".toList = .ok
      ⟨[⟨.string, ['\'']⟩, Line.marker, ⟨.lineEnd, []⟩], some '\''⟩ := by decide +kernel
  obtain ⟨t, ht, hlexemes⟩ := h _ _ [] [⟨.string, "'&".toList⟩] [Line.marker, ⟨.lineEnd, []⟩]
    (by decide) hwhole rfl
  rw [show concat [⟨.string, "'&".toList⟩] = "'&".toList from rfl, halone] at ht
  cases ht
  revert hlexemes
  decide

end FreeForm
