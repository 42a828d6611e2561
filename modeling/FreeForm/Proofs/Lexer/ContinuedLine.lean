import FreeForm.Proofs.Lexer.DividedString
import FreeForm.Proofs.Lexer.Values
import FreeForm.Proofs.Scan.BeforeBlank
import FreeForm.Proofs.Scan.CutLine
import Mathlib.Data.List.Basic

namespace FreeForm

/-!
# Continuing a line at a blank

A line that is continued behind a blank, and goes on behind a blank on a later line, reads as if it
had been written on one line: nothing is joined across white space. The front of the line is taken
the same way on both sides, up to its last token. Behind it stand the mark, the idle lines and the
second mark on one side, blanks on the other; both keep the tokens around them apart, and from there
on the two are scanned and taken alike.
-/

open Lexeme Line

theorem dropWhile_ne_nil {α : Type} {p : α → Bool} {l : List α} (h : ∃ a ∈ l, p a = false) :
    l.dropWhile p ≠ [] := by
  obtain ⟨a, ha, hstop⟩ := h
  intro hnil
  rw [List.dropWhile_eq_nil_iff.mp hnil a ha] at hstop
  cases hstop

namespace Lexer

theorem takeOn_addLexeme (r : Reader) (d : Draft) {l : Lexeme} (hl : l.role = .semantic)
    (ls : List Lexeme) :
    takeOn r d (l :: ls) = (takeOn r (d.addLexeme r.macros l) ls).prepend []
      ((Draft.expansionOf r.macros l).map r.diagnosed) := by
  unfold takeOn
  simp only [Draft.take, hl]
  cases (d.addLexeme r.macros l).take r.macros ls with
  | mk progress findings =>
      cases progress with
      | «open» d' => simp [Taking.prepend]
      | closed s rest => cases rest <;> simp [Taking.prepend]

/-- Liminal text in front of a statement is kept. -/
theorem takeOn_liminal {r : Reader} {d : Draft} (hd : d.tokens = []) {l : Lexeme}
    (hl : l.isLiminal = true) (ls : List Lexeme) :
    takeOn r d (l :: ls) = takeOn r (d.addLiminals [l.text]) ls := by
  cases hrole : l.role with
  | whitespace => exact takeOn_plain d (.inl hrole) ls
  | comment => exact takeOn_plain d (.inr hrole) ls
  | separator => exact takeOn_separator_of_tokens_nil hd hrole ls
  | continuation => simp [isLiminal, hrole] at hl
  | semantic => simp [isLiminal, hrole] at hl

/-- A separator completes a statement, and the lexemes go on with the first token behind it. -/
theorem exists_takeOn_separator {d : Draft} (hd : d.tokens ≠ []) {l : Lexeme}
    (hl : l.role = .separator) {ls : List Lexeme} (hls : ∃ k ∈ ls, k.isSemantic = true) :
    ∃ s m ms, m :: ms <:+ ls ∧ ∀ r rest,
      takeOn r d (l :: ls ++ rest) =
        (takeOn r (.ofLiminals []) (m :: ms ++ rest)).prepend [s] [] := by
  obtain ⟨k, hk, hsemantic⟩ := hls
  have hstop : (!k.isSemantic) = false := by rw [hsemantic]; rfl
  have hne : ls.dropWhile (!·.isSemantic) ≠ [] := dropWhile_ne_nil ⟨k, hk, hstop⟩
  obtain ⟨m, ms, hbehind⟩ := List.exists_cons_of_ne_nil hne
  have hm : m.isSemantic = true := by
    have hhead := List.head?_dropWhile_not (fun m : Lexeme => !m.isSemantic) ls
    rw [hbehind] at hhead
    simpa using hhead
  obtain ⟨s, hs, _⟩ := Draft.exists_statement? (d := d.addLiminals
    (((l :: ls).takeWhile (!·.isSemantic)).map Lexeme.text)) hd
  refine ⟨s, m, ms, hbehind ▸ List.dropWhile_suffix _, fun r rest => ?_⟩
  have hdrop : (ls ++ rest).dropWhile (!·.isSemantic) = m :: (ms ++ rest) := by
    rw [List.dropWhile_append, hbehind]
    rfl
  have htake : (l :: (ls ++ rest)).takeWhile (!·.isSemantic) =
      (l :: ls).takeWhile (!·.isSemantic) := by
    rw [← List.cons_append]
    exact Position.takeWhile_append_of_stops (.inl ⟨k, List.mem_cons_of_mem l hk, hstop⟩)
  rw [List.cons_append, takeOn_separator hl (by simp [hdrop]) (htake ▸ hs), hdrop,
    takeContent_of_tokens_nil rfl (not_of_isSemantic hm).2]
  rfl

/-- Lexemes up to a token complete the same statements and leave the same draft whatever stands
behind them. -/
theorem exists_takeOn_front (macros : MacroTable) {ls : List Lexeme}
    (hmarks : ∀ l ∈ ls, l.isContinuation = false)
    (hlast : ∀ l ∈ ls.getLast?, l.isSemantic = true) (d : Draft) :
    ∃ ss d', ∀ r : Reader, r.macros = macros → ∀ rest, ∃ es,
      takeOn r d (ls ++ rest) = (takeOn r d' rest).prepend ss es := by
  -- on the number of lexemes: a separator is passed together with what is liminal behind it
  induction hn : ls.length using Nat.strong_induction_on generalizing ls d with
  | _ n ih =>
  subst hn
  cases ls with
  | nil => exact ⟨[], d, fun r _ rest => ⟨[], rfl⟩⟩
  | cons l ls =>
      -- the lexemes that are left behind one taken, or behind one and some liminal ones
      have hleft : ∀ {ms}, ms <:+ ls → ∀ e : Draft, ∃ ss d', ∀ r : Reader, r.macros = macros →
          ∀ rest, ∃ es, takeOn r e (ms ++ rest) = (takeOn r d' rest).prepend ss es := by
        intro ms hsuffix e
        have hbehind : ms <:+ l :: ls := hsuffix.trans (List.suffix_cons l ls)
        exact ih _ (Nat.lt_succ_of_le hsuffix.length_le) (fun k hk => hmarks k (hbehind.mem hk))
          (fun k hk => hlast k (getLast?_of_suffix hbehind hk)) e rfl
      have hpassed : ∀ e : Draft,
          (∀ r rest, takeOn r d (l :: ls ++ rest) = takeOn r e (ls ++ rest)) →
          ∃ ss d', ∀ r : Reader, r.macros = macros → ∀ rest, ∃ es,
            takeOn r d (l :: ls ++ rest) = (takeOn r d' rest).prepend ss es := by
        intro e he
        obtain ⟨ss, d', hrest⟩ := hleft (List.suffix_refl ls) e
        refine ⟨ss, d', fun r hr rest => ?_⟩
        rw [he]
        exact hrest r hr rest
      cases hrole : l.role with
      | whitespace => exact hpassed _ fun r rest => takeOn_plain d (.inl hrole) (ls ++ rest)
      | comment => exact hpassed _ fun r rest => takeOn_plain d (.inr hrole) (ls ++ rest)
      | continuation => simp [isContinuation, hrole] at hmarks
      | semantic =>
          obtain ⟨ss, d', hrest⟩ := hleft (List.suffix_refl ls) (d.addLexeme macros l)
          refine ⟨ss, d', fun r hr rest => ?_⟩
          obtain ⟨es, hes⟩ := hrest r hr rest
          refine ⟨(Draft.expansionOf r.macros l).map r.diagnosed ++ es, ?_⟩
          rw [List.cons_append, takeOn_addLexeme r d hrole, hr, hes]
          simp [Taking.prepend]
      | separator =>
          by_cases htokens : d.tokens = []
          · exact hpassed _ fun r rest => takeOn_separator_of_tokens_nil htokens hrole (ls ++ rest)
          · have hne : ls ≠ [] := by
              rintro rfl
              have hl := hlast l rfl
              simp [isSemantic, hrole] at hl
            have hend : (ls.getLast hne).isSemantic = true := by
              refine hlast _ ?_
              rw [List.getLast?_cons, List.getLast?_eq_some_getLast hne]
              rfl
            obtain ⟨s, m, ms, hsuffix, hclosed⟩ :=
              exists_takeOn_separator htokens hrole ⟨_, List.getLast_mem hne, hend⟩
            obtain ⟨ss, d', hrest⟩ := hleft hsuffix (.ofLiminals [])
            refine ⟨s :: ss, d', fun r hr rest => ?_⟩
            obtain ⟨es, hes⟩ := hrest r hr rest
            refine ⟨es, ?_⟩
            rw [hclosed, hes]
            simp [Taking.prepend]

end Lexer

namespace Draft

/-- Nothing is joined with white space. -/
theorem resume_mark (d : Draft) {w : Lexeme} (hw : w.isSemantic = false) (ls : List Lexeme) :
    d.resume (marker :: w :: ls) = .ok (d.addLiminals [Continuation.mark], w :: ls, []) := by
  have hsplit : splitMark (marker :: w :: ls) = ([Continuation.mark], w :: ls) := rfl
  unfold resume
  rw [hsplit]
  cases d.tokens with
  | nil => rfl
  | cons previous older => simp [Continuation.rejoin, hw]

/-- Blanks on both sides of a line break keep the tokens around it apart, as blanks on one line
do. -/
theorem alike_of_blanks (d : Draft) {w v u : Text} (hw : w.all isBlank = true)
    (hv : v.all isBlank = true) (hu : u.all isBlank = true) (ls : List Text) :
    (d.addLiminals (v :: (ls ++ [u]))).Alike (d.addLiminals [w]) := by
  have hmark : ∀ t : Text, t.all isBlank = true → t ≠ Continuation.mark := by
    rintro t ht rfl
    cases ht
  have hfeed : ∀ t : Text, t.all isBlank = true → t.getLast? ≠ some '\n' := by
    intro t ht hlast
    exact not_mem_of_all_isBlank ht '\n' rfl (List.mem_of_getLast? hlast)
  refine ⟨rfl, fun _ => ⟨by simp [addLiminals], ?_, ?_⟩⟩
  · cases hls : d.liminals with
    | nil => simp [addLiminals, hls, hmark w hw, hmark v hv]
    | cons t ts => simp [addLiminals, hls]
  · have hback : (d.liminals ++ v :: (ls ++ [u])).getLast? = some u := by
      simp [List.getLast?_append, List.getLast?_cons]
    simp [addLiminals, hback, hfeed w hw, hfeed u hu]

/-- A statement that is continued at a blank, and goes on behind blanks, is like one with the blanks
on one line. -/
theorem Alike.of_continued {e d : Draft} {gap blank : Text}
    (h : e.Alike (d.addLiminals [gap ++ [' '], Continuation.mark, ['\n']]))
    (hgap : gap.all isBlank = true) (hblank : blank.all isBlank = true) (lead : List Text) :
    (e.addLiminals (lead ++ [Continuation.mark, ' ' :: blank])).Alike
      (d.addLiminals [gap ++ "  ".toList ++ blank]) := by
  have hw : (gap ++ "  ".toList ++ blank).all isBlank = true := by
    rw [List.all_append, List.all_append, hgap, hblank]
    rfl
  have hv : (gap ++ [' ']).all isBlank = true := by
    rw [List.all_append, hgap]
    rfl
  have hu : (' ' :: blank).all isBlank = true := by
    rw [List.all_cons, hblank]
    rfl
  have hbroken := d.alike_of_blanks hw hv hu
    ([Continuation.mark, ['\n']] ++ lead ++ [Continuation.mark])
  refine (h.addLiminals _).trans ?_
  simpa [Draft.addLiminals] using hbroken

end Draft

namespace Phase

/-- A statement starts with the first token of a line that no mark precedes. -/
theorem takeParts_ofLexemes (r : Reader) {d : Draft} (hd : d.tokens = []) {ls : List Lexeme}
    {l : Lexeme} {content : List Lexeme} (hcontent : ls.dropWhile (·.isLiminal) = l :: content)
    (hl : l.isContinuation = false) :
    (building d).takeParts r (.ofLexemes ls) = Lexer.takeOn r d ls := by
  induction ls generalizing d with
  | nil => cases hcontent
  | cons m ls ih =>
      by_cases hm : m.isLiminal = true
      · rw [List.dropWhile_cons_of_pos hm] at hcontent
        have hbehind := ih (d := d.addLiminals [m.text]) hd hcontent
        rw [Lexer.takeOn_liminal hd hm, ← hbehind]
        simp [takeParts, LineParts.ofLexemes, hm, addLiminals, Draft.addLiminals]
      · rw [List.dropWhile_cons_of_neg hm] at hcontent
        obtain ⟨rfl, rfl⟩ := List.cons.inj hcontent
        rw [← Lexer.takeContent_of_tokens_nil hd hl]
        simp [takeParts, LineParts.ofLexemes, hm, addLiminals, Draft.addLiminals]

/-- A line that starts with a mark and blanks goes on with the statement behind them. -/
theorem takeParts_marked (r : Reader) (d : Draft) (lead : List Text) (t : Text)
    (ls : List Lexeme) :
    (building d).takeParts r ⟨lead, marker :: ⟨.whitespace, t⟩ :: ls⟩ =
      Lexer.takeOn r (d.addLiminals (lead ++ [Continuation.mark, t])) ls := by
  have hblank : Lexeme.isSemantic ⟨.whitespace, t⟩ = false := rfl
  have hresume := (d.addLiminals lead).resume_mark hblank ls
  have htaken : (building d).takeParts r ⟨lead, marker :: ⟨.whitespace, t⟩ :: ls⟩ =
      Lexer.takeContent r (d.addLiminals lead) (marker :: ⟨.whitespace, t⟩ :: ls) := rfl
  rw [htaken, Lexer.takeContent_eq_takeOn, hresume]
  dsimp only
  rw [Lexer.takeOn_plain _ (.inl rfl)]
  simp [Draft.addLiminals, Taking.prepend]

end Phase

theorem getLast?_append_ne {α : Type} {l m : List α} {a : α} (hm : m ≠ []) (h : a ∉ m) :
    (l ++ m).getLast? ≠ some a := by
  rw [List.getLast?_append_of_ne_nil l hm]
  exact fun hlast => h (List.mem_of_getLast? hlast)

namespace Line

section Scans

variable {front gap : Text} {ls : List Lexeme} (hgap : gap.all isBlank = true)
  (hreads : ∀ s, StartsBlank s → Reads (front ++ s) ls (gap ++ s))
include hgap hreads

theorem scanLine_before_mark (hfront : '\n' ∉ front) :
    scanLine none (front ++ " &\n".toList) = .ok ⟨ls ++
      [⟨.whitespace, gap ++ [' ']⟩, marker, ⟨.lineEnd, ['\n']⟩], none⟩ := by
  have hblank : StartsBlank [' ', continuationMark] := by
    intro c hc
    rw [← Option.some.inj hc]
    rfl
  have hgap' : (gap ++ [' ']).all isBlank = true := by
    rw [List.all_append, hgap]
    rfl
  have hmark : ∀ c ∈ [continuationMark].head?, isBlank c = false := by
    intro c hc
    rw [← Option.some.inj hc]
    rfl
  have hspace := Reads.of_first? (first?_blanks (by simp) hgap' hmark) (.nil [continuationMark])
  rw [List.append_assoc] at hspace
  have hwhole := (hreads _ hblank).trans hspace
  have hfeed : '\n' ∉ front ++ [' '] := by simpa using hfront
  have hscan := scanLine_of_reads (t := front ++ [' ']) (by simpa using hwhole) hfeed
  simpa [continuationMark] using hscan

theorem scanFresh_undivided (back : Text) :
    scanFresh (fun _ => none) (front ++ ("  ".toList ++ back)) =
      (scanFresh (fun _ => none) (back.dropWhile isBlank)).after
        (ls ++ [⟨.whitespace, gap ++ "  ".toList ++ back.takeWhile isBlank⟩]) none := by
  have hblank : StartsBlank ("  ".toList ++ back) := by
    intro c hc
    rw [← Option.some.inj hc]
    rfl
  have hgap' : (gap ++ "  ".toList).all isBlank = true := by
    rw [List.all_append, hgap]
    rfl
  rw [(hreads _ hblank).scanFresh, ← List.append_assoc, scanFresh_blanks_append (by simp) hgap']
  simp [Scan.after]

end Scans

theorem scanFresh_behind_mark {indent : Text} (hindent : indent.all isBlank = true) (back : Text) :
    scanFresh (fun _ => none) (indent ++ continuationMark :: ' ' :: back) =
      (scanFresh (fun _ => none) (back.dropWhile isBlank)).after
        (blanks indent ++ [marker, ⟨.whitespace, ' ' :: back.takeWhile isBlank⟩]) none := by
  have hspace := scanFresh_blanks_append (t := [' ']) (by simp) rfl back
  rw [List.singleton_append] at hspace
  rw [scanFresh_indented hindent (by decide), scanFresh_mark, hspace]
  simp [Scan.after]

/-- A line scans like the text that is left of it. -/
theorem scanLine_of_after {x t u : Text} {ls : List Lexeme} (hsplit : split (x ++ t) = (x, t))
    (hx : scanFresh (fun _ => none) x = (scanFresh (fun _ => none) u).after ls none) :
    (∃ e, scanLine none (x ++ t) = .error e) ∧ (scanFresh (fun _ => none) u).rest ≠ [] ∨
      ∃ more o, scanFresh (fun _ => none) u = ⟨more, o, []⟩ ∧
        scanLine none (x ++ t) = .ok ⟨ls ++ (more ++ [⟨.lineEnd, t⟩]), o⟩ := by
  have hscan : scanLine none (x ++ t) =
      ScannedLine.ofScan (x ++ t) ((scanFresh (fun _ => none) u).after ls none) := by
    rw [← hx]
    simp only [scanLine, scanLineWith, body, hsplit]
    rfl
  rw [hscan]
  generalize scanFresh (fun _ => none) u = s
  obtain ⟨more, o, rest⟩ := s
  cases rest with
  | nil =>
      right
      refine ⟨more, o, rfl, ?_⟩
      simp [ScannedLine.ofScan, Scan.after, terminator, hsplit]
  | cons c rest => exact .inl ⟨⟨_, rfl⟩, List.cons_ne_nil c rest⟩

end Line

namespace Phase

/-- A line in front of which nothing stands, read up to its last token and on from there. -/
theorem takeReading_front (env : Environment) {r : Reader} (hactive : r.isSuppressed = false)
    (hopen : r.scanner.openDelimiter = none) {line : Text} {ls more : List Lexeme}
    {o : Option Char} (hscan : scanLine none line = .ok ⟨ls ++ more, o⟩)
    (hmarks : ∀ l ∈ ls, l.isContinuation = false) {last : Lexeme} (hlast : last ∈ ls)
    (hsemantic : last.isSemantic = true) :
    (r.read env (.ok line)).reader = r.opened o (r.lineNumber + 1) ∧
      (building (.ofLiminals [])).takeReading (r.read env (.ok line)) =
        Lexer.takeOn (r.opened o (r.lineNumber + 1)) (.ofLiminals []) (ls ++ more) := by
  have hcontent := (not_of_isSemantic hsemantic).1
  have hdirective := isDirective_of_mem_scanLine hscan (List.mem_append_left more hlast) hcontent
  rw [← hopen] at hscan
  rw [Reader.read_of_scanLine env hactive hdirective hscan]
  refine ⟨rfl, ?_⟩
  obtain ⟨m, ms, hdrop⟩ := List.exists_cons_of_ne_nil (dropWhile_ne_nil ⟨last, hlast, hcontent⟩)
  have hm : m ∈ ls := by
    have hsuffix : m :: ms <:+ ls := hdrop ▸ List.dropWhile_suffix _
    exact hsuffix.mem List.mem_cons_self
  have hbehind : (ls ++ more).dropWhile (·.isLiminal) = m :: (ms ++ more) := by
    rw [List.dropWhile_append, hdrop]
    rfl
  exact takeParts_ofLexemes _ rfl hbehind (hmarks m hm)

/-- An indented line that goes on behind a mark and blanks. -/
theorem takeReading_marked (env : Environment) {r : Reader} (hactive : r.isSuppressed = false)
    (hopen : r.scanner.openDelimiter = none) {line indent t : Text} {more : List Lexeme}
    {o : Option Char}
    (hscan : scanLine none line = .ok ⟨blanks indent ++ [marker, ⟨.whitespace, t⟩] ++ more, o⟩)
    (d : Draft) :
    (r.read env (.ok line)).reader = r.opened o (r.lineNumber + 1) ∧
      (building d).takeReading (r.read env (.ok line)) =
        Lexer.takeOn (r.opened o (r.lineNumber + 1))
          (d.addLiminals ((blanks indent).map Lexeme.text ++ [Continuation.mark, t])) more := by
  have hdirective := isDirective_of_mem_scanLine (l := marker) hscan (by simp) rfl
  have hlexemes : blanks indent ++ [marker, ⟨.whitespace, t⟩] ++ more =
      blanks indent ++ marker :: (⟨.whitespace, t⟩ :: more) := by simp
  have hparts := LineParts.ofLexemes_append (isLiminal_of_mem_blanks (t := indent)) (l := marker)
    rfl (⟨.whitespace, t⟩ :: more)
  rw [← hopen, hlexemes] at hscan
  rw [Reader.read_of_scanLine env hactive hdirective hscan, hparts]
  exact ⟨rfl, takeParts_marked _ d _ t more⟩

end Phase

/-- The bare tokens of the statements of a run, unless it fails. -/
def Run.tokens? (run : Run) : Option (List (List Token)) :=
  run.result.toOption.map fun d => d.statements.map Statement.bare

namespace Assembly

/-- The bare tokens of the statements that some lines amount to, if they can be read. -/
def tokens? (a : Assembly) : Option (List (List Token)) :=
  a.result.toOption.map fun phase => (a.statements ++ phase.last).map Statement.bare

theorem tokens?_prepend (ss : List Statement) (es : List Event) (a : Assembly) :
    (a.prepend ss es).tokens? = a.tokens?.map (ss.map Statement.bare ++ ·) := by
  obtain ⟨ts, r, result, fs⟩ := a
  cases result <;> simp [tokens?, prepend, Except.toOption]

theorem Alike.tokens? {R : Reader → Reader → Prop} {a b : Assembly} (h : a.Alike R b) :
    a.tokens? = b.tokens? := by
  obtain ⟨ss, r, result, es⟩ := a
  obtain ⟨ss', r', result', es'⟩ := b
  obtain ⟨hstatements, hresult, _⟩ := h
  cases hresult with
  | error he => rfl
  | ok hphase =>
      have hlast := hphase.last
      simp only [Assembly.tokens?, Except.toOption, Option.map_some, List.map_append, hstatements,
        hlast]

theorem tokens?_of_unscanned (env : Environment) {r : Reader} (hactive : r.isSuppressed = false)
    {line : Text} {e : LexError} (hscan : scanLine r.scanner.openDelimiter line = .error e)
    (lines : Source) (p : Phase) : (assemble env (.ok line :: lines) r p).tokens? = none := by
  rw [assemble, Reader.read_of_scanLine_error env hactive hscan]
  rfl

end Assembly

theorem Lexer.tokens?_run (env : Environment) (source : Source) (macros : MacroTable)
    (name : Option Path) : ((start source macros name).run env).tokens? =
      (assemble env source (.start name macros) (.building (.ofLiminals []))).tokens? := by
  rw [run_start]
  generalize assemble env source (.start name macros) (.building (.ofLiminals [])) = a
  obtain ⟨ss, r, result, es⟩ := a
  cases result <;> rfl

section Texts

variable (env : Environment) {r : Reader} (hactive : r.isSuppressed = false)
  (hopen : r.scanner.openDelimiter = none) {front gap : Text} {ls : List Lexeme}
  (hfront : '\n' ∉ front) (hgap : gap.all isBlank = true)
  (hreads : ∀ s, StartsBlank s → Reads (front ++ s) ls (gap ++ s))
  (hmarks : ∀ l ∈ ls, l.isContinuation = false) {last : Lexeme} (hlast : last ∈ ls)
  (hsemantic : last.isSemantic = true) {ss : List Statement} {d : Draft}
  (htake : ∀ r' : Reader, r'.macros = r.macros → ∀ rest, ∃ es,
    Lexer.takeOn r' (.ofLiminals []) (ls ++ rest) = (Lexer.takeOn r' d rest).prepend ss es)
include hactive hopen hfront hgap hreads hmarks hlast hsemantic htake

/-- The first line is taken up to its mark, and the idle lines behind it are passed over. -/
theorem exists_assemble_marked {between : List Text}
    (hbetween : ∀ line ∈ between, line.getLast? = some '\n' ∧ isIdle line = true) :
    ∃ n e es, e.Alike (d.addLiminals [gap ++ [' '], Continuation.mark, ['\n']]) ∧ ∀ lines,
      assemble env (.ok (front ++ " &\n".toList) :: (between.map .ok ++ lines)) r
          (.building (.ofLiminals [])) =
        (assemble env lines (r.opened none n) (.building e)).prepend ss es := by
  have hline := scanLine_before_mark hgap hreads hfront
  obtain ⟨hreader, htaken⟩ := Phase.takeReading_front env hactive hopen hline hmarks hlast hsemantic
  obtain ⟨es, hes⟩ := htake (r.opened none (r.lineNumber + 1)) rfl
    [⟨.whitespace, gap ++ [' ']⟩, marker, ⟨.lineEnd, ['\n']⟩]
  have hmark : marker.role = .continuation := rfl
  have hopened : ((d.addLiminals [gap ++ [' ']]).addLiminals ([marker, ⟨.lineEnd, ['\n']⟩].map
      Lexeme.text)) = d.addLiminals [gap ++ [' '], Continuation.mark, ['\n']] := by
    simp [Draft.addLiminals, marker, Continuation.mark]
  rw [hes, Lexer.takeOn_plain _ (.inl rfl), Lexer.takeOn_mark _ hmark, hopened, Taking.prepend,
    List.append_nil, List.append_nil] at htaken
  have hfeed : (front ++ " &\n".toList).getLast? = some '\n' := by simp
  have hend := Phase.atLineEnd_takeReading hfeed _ (congrArg Taking.result htaken)
  obtain ⟨n, hpasses⟩ : ∃ n, Reader.Passes env between (r.opened none (r.lineNumber + 1))
      ((r.opened none (r.lineNumber + 1)).atLine n) := Reader.passes_of_isIdle hbetween _
  obtain ⟨q, later, _, halike, hpassed⟩ := hpasses.exists_phase hend
  cases halike with
  | @building e _ halike =>
      refine ⟨n, e, es ++ later, halike, fun lines => ?_⟩
      rw [assemble_cons htaken, hreader, hpassed, Assembly.prepend_prepend, List.append_nil]
      rfl

omit hfront in
/-- The line behind the mark completes what the undivided line completes, or neither is read. -/
theorem tokens?_assemble_continued {back indent t : Text} (hindent : indent.all isBlank = true)
    (hback : split (indent ++ continuationMark :: ' ' :: back ++ t) =
      (indent ++ continuationMark :: ' ' :: back, t))
    (hwhole : split (front ++ ("  ".toList ++ back) ++ t) = (front ++ ("  ".toList ++ back), t))
    {e : Draft} (he : e.Alike (d.addLiminals [gap ++ [' '], Continuation.mark, ['\n']])) (n : Nat)
    (lines : Source) :
    (assemble env (.ok (indent ++ continuationMark :: ' ' :: back ++ t) :: lines) (r.opened none n)
        (.building e)).tokens?.map (ss.map Statement.bare ++ ·) =
      (assemble env (.ok (front ++ ("  ".toList ++ back) ++ t) :: lines) r
        (.building (.ofLiminals []))).tokens? := by
  rcases scanLine_of_after hback (scanFresh_behind_mark hindent back) with
    ⟨⟨f, hf⟩, hrest⟩ | ⟨more, o, hmore, hcontinued⟩
  · rcases scanLine_of_after hwhole (scanFresh_undivided hgap hreads back) with
      ⟨⟨f', hf'⟩, _⟩ | ⟨more, o, hmore, _⟩
    · rw [← hopen] at hf'
      rw [Assembly.tokens?_of_unscanned env hactive hf',
        Assembly.tokens?_of_unscanned env (r := r.opened none n) hactive hf]
      rfl
    · exact absurd (congrArg Scan.rest hmore) hrest
  · rcases scanLine_of_after hwhole (scanFresh_undivided hgap hreads back) with
      ⟨_, hrest⟩ | ⟨more', o', hmore', hundivided⟩
    · exact absurd (congrArg Scan.rest hmore) hrest
    · rw [hmore] at hmore'
      cases hmore'
      rw [List.append_assoc ls] at hundivided
      obtain ⟨hreader, htaken⟩ :=
        Phase.takeReading_front env hactive hopen hundivided hmarks hlast hsemantic
      obtain ⟨es, hes⟩ := htake (r.opened o (r.lineNumber + 1)) rfl
        ([⟨.whitespace, gap ++ "  ".toList ++ back.takeWhile isBlank⟩] ++
          (more ++ [⟨.lineEnd, t⟩]))
      rw [hes, List.singleton_append, Lexer.takeOn_plain _ (.inl rfl)] at htaken
      obtain ⟨hreader', htaken'⟩ :=
        Phase.takeReading_marked env (r := r.opened none n) hactive rfl hcontinued e
      have halike := he.of_continued hgap (List.all_takeWhile (p := isBlank) (l := back))
        ((blanks indent).map Lexeme.text)
      have hreaders : ((r.opened none n).opened o (n + 1)).SameButLine
          (r.opened o (r.lineNumber + 1)) := rfl
      have hmacros : ((r.opened none n).opened o (n + 1)).macros =
          (r.opened o (r.lineNumber + 1)).macros := rfl
      have htakings := Lexer.takeOn_alike hmacros halike (more ++ [⟨.lineEnd, t⟩])
      have hbehind := htakings.followedBy hreaders lines fun p q hpq =>
        assemble_alike (Reader.readsAlike_sameButLine env) lines hreaders hpq
      rw [assemble, assemble, htaken, htaken', hreader, hreader', Taking.followedBy_prepend,
        Assembly.tokens?_prepend]
      exact congrArg (Option.map (ss.map Statement.bare ++ ·)) hbehind.tokens?

end Texts

namespace Lexer

/-- A line that is continued at a blank, past any blank and comment lines, reads as if it had been
written on one line. -/
theorem run_of_continuedLine (env : Environment) (macros : MacroTable) (name : Option Path)
    {front back indent rest : Text} {between : List Text} (hfront : '\n' ∉ front)
    {s : ScannedLine} (hscan : scanLine none front = .ok s)
    (hmarks : ∀ l ∈ s.lexemes, l.isContinuation = false)
    (hclosed : ∀ l ∈ s.lexemes, l.kind = .string → ∃ q content, l.text = literal q content)
    {last : Lexeme} (hlast : (s.lexemes.filter (!·.isWhitespace)).getLast? = some last)
    (hsemantic : last.isSemantic = true) (hfeed : '\n' ∉ back) (hreturn : '\r' ∉ back)
    (hbetween : ∀ line ∈ between, '\n' ∉ line ∧ isIdle (line ++ ['\n']) = true)
    (hindent : indent.all isBlank = true)
    (hrest : rest = [] ∨ ['\n'] <+: rest ∨ ['\r', '\n'] <+: rest) :
    ((start (.ofText (front ++ " &\n".toList ++ between.flatMap (· ++ ['\n']) ++ indent ++
        "& ".toList ++ back ++ rest)) macros name).run env).tokens? =
      ((start (.ofText (front ++ "  ".toList ++ back ++ rest)) macros name).run env).tokens? := by
  obtain ⟨lexemes, opened⟩ := s
  obtain ⟨ls, hfresh, rfl⟩ := scanLine_none_eq_ok.mp hscan
  rw [body_of_not_mem hfront] at hfresh
  have hlast' : (ls.filter (!·.isWhitespace)).getLast? = some last := by
    simpa [isWhitespace, Lexeme.role, Kind.role] using hlast
  have hclosed' : ∀ l ∈ ls, l.kind = .string → l.IsClosed := by
    intro l hl hstring
    obtain ⟨q, content, htext⟩ := hclosed l (List.mem_append_left _ hl) hstring
    exact ⟨q, _, within_doubled q content, htext⟩
  obtain ⟨tokens, gap, hplain, hend, hgap, hreads⟩ := exists_reads_before_blank hfresh
    (fun l hl => hmarks l (List.mem_append_left _ hl)) hclosed' hlast' hsemantic
  have hmem : last ∈ tokens := List.mem_of_getLast? hend
  have hsemantic' : ∀ l ∈ tokens.getLast?, l.isSemantic = true := by
    intro l hl
    rw [hend] at hl
    rwa [← Option.some.inj hl]
  obtain ⟨ss, d, htake⟩ := exists_takeOn_front macros hplain hsemantic' (.ofLiminals [])
  obtain ⟨t, lines, ht, hlines⟩ := Source.exists_ofText_append hrest
  have hidle : ∀ line ∈ between.map (· ++ ['\n']),
      line.getLast? = some '\n' ∧ isIdle line = true := by
    intro line hline
    obtain ⟨l, hl, rfl⟩ := List.mem_map.mp hline
    exact ⟨List.getLast?_concat, (hbetween l hl).2⟩
  obtain ⟨n, e, es, he, hmarked⟩ := exists_assemble_marked env
    (r := .start name macros) rfl rfl hfront hgap hreads hplain hmem hsemantic htake hidle
  have hcontinued : '\n' ∉ indent ++ continuationMark :: ' ' :: back :=
    feed_not_mem_indented hindent (by simpa using hfeed)
  have hundivided : '\n' ∉ front ++ ("  ".toList ++ back) := by
    simp [hfront, hfeed]
  have hsource : Source.ofText (front ++ " &\n".toList ++ between.flatMap (· ++ ['\n']) ++ indent ++
      "& ".toList ++ back ++ rest) = .ok (front ++ " &\n".toList) ::
        ((between.map (· ++ ['\n'])).map .ok ++
          .ok (indent ++ continuationMark :: ' ' :: back ++ t) :: lines) := by
    have hline : '\n' ∉ front ++ " &".toList := by simp [hfront]
    have hcut := Source.ofText_line_append hline
      (between.flatMap (· ++ ['\n']) ++ (indent ++ continuationMark :: ' ' :: back ++ rest))
    rw [Source.ofText_lines_append fun l hl => (hbetween l hl).1,
      hlines _ (by simp) hcontinued] at hcut
    simpa [continuationMark] using hcut
  have hwhole : Source.ofText (front ++ "  ".toList ++ back ++ rest) =
      .ok (front ++ ("  ".toList ++ back) ++ t) :: lines := by
    rw [← hlines _ (by simp) hundivided]
    simp
  have hback := split_append_terminator hcontinued
    (getLast?_append_ne (List.cons_ne_nil _ _) (by simp [continuationMark, hreturn])) ht
  have hsplit := split_append_terminator hundivided
    (getLast?_append_ne (by simp) (by simp [hreturn])) ht
  rw [tokens?_run, tokens?_run, hsource, hwhole, hmarked, Assembly.tokens?_prepend]
  exact tokens?_assemble_continued env (r := .start name macros) rfl rfl hgap hreads hplain hmem
    hsemantic htake hindent hback hsplit he n lines

/-- The second statement of a line is continued behind a macro with an empty body, past a comment
and a line of tabs. -/
theorem run_of_continuedLine_past_comment :
    ((start (.ofText ("t'a'; N".toList ++ " &\n".toList ++
        ["! it's".toList, ['\t']].flatMap (· ++ ['\n']) ++ "  ".toList ++ "& ".toList ++
        " + N; c ! d".toList ++ "\ne\n".toList)) (MacroTable.empty.insert "N".toList []) none).run
          ⟨.none, [], 0, none⟩).tokens?.map (·.map (·.map Token.value)) =
      some [["t".toList, "'a'".toList], ["+".toList], ["c".toList], ["e".toList]] ∧
    ((start (.ofText ("t'a'; N".toList ++ " &\n".toList ++
        ["! it's".toList, ['\t']].flatMap (· ++ ['\n']) ++ "  ".toList ++ "& ".toList ++
        " + N; c ! d".toList ++ "\ne\n".toList)) (MacroTable.empty.insert "N".toList []) none).run
          ⟨.none, [], 0, none⟩).tokens? =
      ((start (.ofText ("t'a'; N".toList ++ "  ".toList ++ " + N; c ! d".toList ++
        "\ne\n".toList)) (MacroTable.empty.insert "N".toList []) none).run
          ⟨.none, [], 0, none⟩).tokens? := by
  have hscan : scanLine none "t'a'; N".toList = .ok ⟨[⟨.name, "t".toList⟩, ⟨.string, "'a'".toList⟩,
      ⟨.separator, [';']⟩, ⟨.whitespace, [' ']⟩, ⟨.name, "N".toList⟩, ⟨.lineEnd, []⟩], none⟩ := by
    decide +kernel
  refine ⟨by decide +kernel, run_of_continuedLine _ _ _ (by decide) hscan (by decide) ?_ rfl rfl
    (by decide) (by decide) (by decide) (by decide) (.inr (.inl (by decide)))⟩
  intro l hl hstring
  refine ⟨'\'', ['a'], ?_⟩
  revert l
  decide

end Lexer

end FreeForm
