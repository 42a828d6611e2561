import Mathlib.Data.List.TakeWhile
import FreeForm.Proofs.Scan.Lossless
import FreeForm.Reader

namespace FreeForm

/-!
# Directive lines

Whether a line is a directive can be told from its characters or from its lexemes. Both views agree
on every line that scans, whatever string it may start in, and a directive line always scans: to
nothing but liminal text, with the string left as it was.
-/

namespace Line

/-- The directive on a line, without the blanks in front of it and without the line end. -/
def directiveText (line : Text) : Text :=
  body (line.dropWhile isBlank)

theorem isBlank_iff {c : Char} : isBlank c = true ↔ c = ' ' ∨ c = '\t' := by
  simp [isBlank]

theorem isQuote_iff {c : Char} : isQuote c = true ↔ c = '\'' ∨ c = '"' := by
  simp [isQuote]

theorem isCommentMark_iff {c : Char} :
    isCommentMark c = true ↔ c = '!' ∨ c = Lexeme.directiveMark := by
  simp [isCommentMark]

theorem body_cons_of_ne {c : Char} (hn : c ≠ '\n') (hr : c ≠ '\r') (rest : Text) :
    body (c :: rest) = c :: body rest := by
  unfold body
  rw [split.eq_4]
  · intro h
    exact absurd h hn
  · intro h
    exact absurd h hr

theorem body_cons_cases (c : Char) (rest : Text) :
    body (c :: rest) = [] ∨ ∃ u, body (c :: rest) = c :: u := by
  unfold body split
  split <;> simp_all

theorem terminator_cases (t : Text) :
    terminator t = [] ∨ terminator t = ['\n'] ∨ terminator t = ['\r', '\n'] := by
  unfold terminator
  fun_induction split t <;> simp_all

theorem getLast?_terminator {line : Text} (h : line.getLast? = some '\n') :
    (terminator line).getLast? = some '\n' := by
  unfold terminator
  fun_induction split line with
  | case1 => cases h
  | case2 => rfl
  | case3 => rfl
  | case4 c rest hfeed hreturn ih =>
      apply ih
      cases rest with
      | nil =>
          have hc : c = '\n' := Option.some.inj h
          exact absurd rfl (hfeed hc)
      | cons d rest => simpa using h

/-- With a line feed behind it a text is the content of a line, but for a carriage return at its end. -/
theorem body_append_feed (t : Text) :
    body (t ++ ['\n']) = if t.getLast? = some '\r' then t.dropLast else t := by
  induction t with
  | nil => rfl
  | cons c rest ih =>
      by_cases hreturn : c = '\r' ∧ rest = []
      · obtain ⟨rfl, rfl⟩ := hreturn
        rfl
      · have hcons : body (c :: rest ++ ['\n']) = c :: body (rest ++ ['\n']) := by
          rw [List.cons_append, body, split.eq_4]
          · rfl
          · intro _ hrest
            simp at hrest
          · intro hc hrest
            exact hreturn ⟨hc, by simpa using hrest⟩
        rw [hcons, ih]
        cases rest with
        | nil =>
            have hc : c ≠ '\r' := fun hc => hreturn ⟨hc, rfl⟩
            simp [hc]
        | cons d rest =>
            rw [List.getLast?_cons_cons, List.dropLast_cons_cons]
            split <;> rfl

theorem dropWhile_body (line : Text) : (body line).dropWhile isBlank = directiveText line := by
  unfold directiveText
  induction line with
  | nil => rfl
  | cons c rest ih =>
      by_cases hc : isBlank c = true
      · have hplain : c ≠ '\n' ∧ c ≠ '\r' := by
          rcases isBlank_iff.mp hc with rfl | rfl <;> decide
        rw [body_cons_of_ne hplain.1 hplain.2, List.dropWhile_cons_of_pos hc,
          List.dropWhile_cons_of_pos hc, ih]
      · rw [List.dropWhile_cons_of_neg hc]
        rcases body_cons_cases c rest with h | ⟨u, h⟩
        · rw [h]
          rfl
        · rw [h, List.dropWhile_cons_of_neg hc]

theorem head?_directiveText {line : Text} (h : isDirective line = true) :
    ∃ rest, directiveText line = Lexeme.directiveMark :: rest := by
  unfold isDirective at h
  unfold directiveText
  cases hdrop : line.dropWhile isBlank with
  | nil => simp [hdrop] at h
  | cons c rest =>
      have hc : c = Lexeme.directiveMark := by simpa [hdrop] using h
      subst hc
      exact ⟨body rest, body_cons_of_ne (by decide) (by decide) rest⟩

theorem isDirective_of_directiveText {line rest : Text}
    (h : directiveText line = Lexeme.directiveMark :: rest) : isDirective line = true := by
  unfold directiveText at h
  unfold isDirective
  cases hdrop : line.dropWhile isBlank with
  | nil =>
      rw [hdrop] at h
      cases h
  | cons c u =>
      rw [hdrop] at h
      rcases body_cons_cases c u with hbody | ⟨v, hbody⟩
      · rw [hbody] at h
        cases h
      · rw [hbody] at h
        cases h
        rfl

theorem scanFresh_of_first? {t : Text} {p : Piece} (h : Piece.first? t = some p) :
    scanFresh (fun _ => none) t = (scanFresh (fun _ => none) p.rest).after [p.lexeme] p.opened := by
  rw [scanFresh]
  split
  · rename_i hnone
    rw [h] at hnone
    cases hnone
  · rename_i q hq
    rw [h] at hq
    cases hq
    rw [renameLexeme_none]

theorem scanFresh_of_none {t : Text} (h : Piece.first? t = none) :
    scanFresh (fun _ => none) t = ⟨[], none, t⟩ := by
  rw [scanFresh]
  split
  · rfl
  · rename_i p hp
    rw [h] at hp
    cases hp

theorem scanFresh_nil : scanFresh (fun _ => none) [] = ⟨[], none, []⟩ := by
  rw [scanFresh]
  rfl

theorem scanFresh_comment {c : Char} (hc : isCommentMark c = true) (rest : Text) :
    scanFresh (fun _ => none) (c :: rest) = ⟨[⟨.comment, c :: rest⟩], none, []⟩ := by
  have hmark : c = '!' ∨ c = '#' := by simpa [isCommentMark, Lexeme.directiveMark] using hc
  have hfirst : Piece.first? (c :: rest) = some (Piece.ofKind .comment (c :: rest, [])) := by
    rcases hmark with rfl | rfl <;> rfl
  rw [scanFresh_of_first? hfirst]
  simp only [Piece.ofKind, scanFresh_nil]
  rfl

/-- A comment takes all of a text behind its blanks. -/
theorem scanFresh_of_comment {t : Text} {c : Char} {rest : Text}
    (ht : t.dropWhile isBlank = c :: rest) (hc : isCommentMark c = true) :
    scanFresh (fun _ => none) t =
      ⟨[⟨.whitespace, t.takeWhile isBlank⟩].filter (!·.text.isEmpty) ++ [⟨.comment, c :: rest⟩],
        none, []⟩ := by
  cases t with
  | nil => cases ht
  | cons d u =>
      by_cases hd : isBlank d = true
      · have hfirst : Piece.first? (d :: u) =
            some (Piece.ofKind .whitespace (Pattern.many isBlank (d :: u))) := by
          simp [Piece.first?, Piece.ofCons?, hd]
        rw [scanFresh_of_first? hfirst]
        simp only [Piece.ofKind, Pattern.many, ht, scanFresh_comment hc]
        simp [Scan.after, hd]
      · rw [List.dropWhile_cons_of_neg hd] at ht
        cases ht
        rw [scanFresh_comment hc]
        simp [hd]

theorem scan_of_comment (carried : Option Char) {t : Text} {c : Char} {rest : Text}
    (ht : t.dropWhile isBlank = c :: rest) (hc : isCommentMark c = true) :
    scan (fun _ => none) carried t =
      ⟨[⟨.whitespace, t.takeWhile isBlank⟩].filter (!·.text.isEmpty) ++ [⟨.comment, c :: rest⟩],
        carried, []⟩ := by
  cases carried with
  | none => exact scanFresh_of_comment ht hc
  | some delimiter =>
      have hopen : isBlankOrComment t = true := by simp [isBlankOrComment, ht, hc]
      simp [scan, scanCarried, hopen, scanFresh_of_comment ht hc]

theorem Piece.isWhitespace_ofPunctuation (c : Char) (rest : Text) :
    (ofPunctuation c rest).lexeme.isWhitespace = false := by
  have hkind : (punctuationKind c).role ≠ .whitespace := by
    unfold punctuationKind
    split
    · decide
    · split <;> decide
  cases rest with
  | nil => simpa [ofPunctuation, ofKind, Lexeme.isWhitespace, Lexeme.role] using hkind
  | cons d rest =>
      by_cases hp : [c, d] ∈ pairs
      · simp [ofPunctuation, ofKind, hp, Lexeme.isWhitespace, Lexeme.role, Lexeme.Kind.role]
      · simpa [ofPunctuation, ofKind, hp, Lexeme.isWhitespace, Lexeme.role] using hkind

theorem Piece.isBlank_of_first? {t : Text} {p : Piece} (h : first? t = some p)
    (hw : p.lexeme.isWhitespace = true) : p.lexeme.text.all isBlank = true := by
  cases t with
  | nil => simp [first?] at h
  | cons c rest =>
      simp only [first?, ofCons?] at h
      repeat' split at h
      all_goals simp only [Option.some.injEq, reduceCtorEq] at h
      all_goals subst h
      · exact List.all_takeWhile
      -- the other ways to start a lexeme do not give white space
      iterate 6
        · simp [ofKind, ofQuotation, Lexeme.isWhitespace, Lexeme.role, Lexeme.Kind.role] at hw
      · rw [isWhitespace_ofPunctuation] at hw
        cases hw

theorem isBlank_of_mem_scan {carried : Option Char} {t : Text} {l : Lexeme}
    (h : l ∈ (scan (fun _ => none) carried t).lexemes) (hw : l.isWhitespace = true) :
    l.text.all isBlank = true := by
  rcases mem_scan_cases h with ⟨u, p, hfirst, rfl⟩ | rfl | rfl | hstring
  · exact Piece.isBlank_of_first? hfirst hw
  · exact List.all_takeWhile
  · cases hw
  · simp [Lexeme.isWhitespace, Lexeme.role, hstring, Lexeme.Kind.role] at hw

end Line

/-- The lexeme that a directive text was found in. -/
theorem directiveText?_eq_some {ls : List Lexeme} {text : Text}
    (h : directiveText? ls = some text) :
    ∃ front l rest, ls = front ++ l :: rest ∧ (∀ m ∈ front, m.isWhitespace = true) ∧
      l.isDirective = true ∧ l.text = text := by
  unfold directiveText? at h
  split at h
  · rename_i l hfind
    obtain ⟨_, front, rest, hcut, hfront⟩ := List.find?_eq_some_iff_append.mp hfind
    by_cases hl : l.isDirective = true
    · rw [if_pos hl] at h
      have hls := List.takeWhile_append_dropWhile (p := (·.isLiminal)) (l := ls)
      rw [hcut, List.append_assoc, List.cons_append] at hls
      exact ⟨front, l, _, hls.symm, by simpa using hfront, hl, Option.some.inj h⟩
    · rw [if_neg hl] at h
      cases h
  · cases h

theorem isDirective_of_scanLine {carried : Option Char} {line : Text} {s : ScannedLine}
    {text : Text} (h : scanLine carried line = .ok s)
    (hd : directiveText? s.lexemes = some text) : Line.isDirective line = true := by
  obtain ⟨front, l, rest, hls, hfront, hl, -⟩ := directiveText?_eq_some hd
  obtain ⟨hrest, hlexemes⟩ := scanLine_eq_ok h
  have hscan := Line.scan_append carried (Line.body line)
  have hl : l.kind = .comment ∧ l.text.head? = some Lexeme.directiveMark := by
    simpa [Lexeme.isDirective] using hl
  obtain ⟨mark, hmark⟩ := List.head?_eq_some_iff.mp hl.2
  rw [hlexemes] at hls
  rcases List.eq_nil_or_concat rest with rfl | ⟨back, e, rfl⟩
  · -- the last lexeme is the line end
    have hlast := (List.append_inj' hls rfl).2
    cases hlast
    cases hl.1
  · rw [List.concat_eq_append, ← List.cons_append, ← List.append_assoc] at hls
    have hfound := (List.append_inj' hls rfl).1
    rw [hrest, List.append_nil, hfound, Lexeme.concat_append, Lexeme.concat_cons] at hscan
    have hblank : ∀ c ∈ Lexeme.concat front, isBlank c = true := by
      intro c hc
      obtain ⟨m, hm, hcm⟩ := List.mem_flatMap.mp hc
      have hmem : m ∈ (Line.scan (fun _ => none) carried (Line.body line)).lexemes := by
        rw [hfound]
        exact List.mem_append_left _ hm
      exact List.all_eq_true.mp (Line.isBlank_of_mem_scan hmem (hfront m hm)) c hcm
    have htext := Line.dropWhile_body line
    rw [← hscan, List.dropWhile_append_of_pos hblank, hmark] at htext
    exact Line.isDirective_of_directiveText htext.symm

theorem scanLine_of_isDirective (carried : Option Char) {line : Text}
    (h : Line.isDirective line = true) :
    ∃ s, scanLine carried line = .ok s ∧ s.openDelimiter = carried ∧
      directiveText? s.lexemes = some (Line.directiveText line) ∧
      (LineParts.ofLexemes s.lexemes).content = [] := by
  obtain ⟨rest, hrest⟩ := Line.head?_directiveText h
  have hscan := Line.scan_of_comment carried ((Line.dropWhile_body line).trans hrest) (by decide)
  refine ⟨⟨(Line.scan (fun _ => none) carried (Line.body line)).lexemes ++
    [⟨.lineEnd, Line.terminator line⟩], carried⟩, ?_, rfl, ?_, ?_⟩
  · simp [scanLine, scanLineWith, ScannedLine.ofScan, hscan]
  · rw [hscan, hrest]
    cases hblanks : (Line.body line).takeWhile isBlank <;> rfl
  · rw [hscan]
    cases hblanks : (Line.body line).takeWhile isBlank <;> rfl

/-- A line that holds more than liminal text is no directive. -/
theorem isDirective_of_mem_scanLine {carried : Option Char} {line : Text} {s : ScannedLine}
    (h : scanLine carried line = .ok s) {l : Lexeme} (hl : l ∈ s.lexemes)
    (hcontent : l.isLiminal = false) : Line.isDirective line = false := by
  rw [Bool.eq_false_iff]
  intro hdirective
  obtain ⟨t, ht, _, _, hnone⟩ := scanLine_of_isDirective carried hdirective
  rw [h] at ht
  cases ht
  rw [List.dropWhile_eq_nil_iff.mp hnone l hl] at hcontent
  cases hcontent

namespace Scanner

theorem scan_of_isDirective (s : Scanner) {line : Text} (h : Line.isDirective line = true) :
    ∃ lexemes, s.scan line = (.ok lexemes, s) ∧
      directiveText? lexemes = some (Line.directiveText line) ∧
      (LineParts.ofLexemes lexemes).content = [] := by
  obtain ⟨scanned, hscan, hopen, htext, hcontent⟩ := scanLine_of_isDirective s.openDelimiter h
  refine ⟨scanned.lexemes, ?_, htext, hcontent⟩
  simp [scan, hscan, hopen]

theorem directiveText?_of_scan {s s' : Scanner} {line : Text} {lexemes : List Lexeme}
    (h : s.scan line = (.ok lexemes, s')) (hline : Line.isDirective line = false) :
    directiveText? lexemes = none := by
  obtain ⟨opened, hscan⟩ := scan_eq_ok h
  cases htext : directiveText? lexemes with
  | none => rfl
  | some text =>
      rw [isDirective_of_scanLine hscan htext] at hline
      cases hline

end Scanner

end FreeForm
