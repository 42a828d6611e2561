import FreeForm.Proofs.Lexer.Composition
import FreeForm.Proofs.Lexer.CutOff
import FreeForm.Proofs.Scan.CutLine

namespace FreeForm

/-!
# Tokens over two lines

A name, a number or an operator can be divided between two lines, with a continuation mark at the
end of the first and at the front of the second. The first lexeme behind that mark is all that is
joined, so the token is the same again if its second part is scanned as one lexeme there, and only
then. It never is where an earlier mark cuts the token off, and where the point of a dotted operator
would belong to the digits in front of it.
-/

open Lexeme Line

namespace Reader

variable (env : Environment) {r : Reader} (hactive : r.isSuppressed = false)
  (hopen : r.scanner.openDelimiter = none)
include hactive hopen

theorem takeReading_marked (d : Draft) {t : Text} {ls : List Lexeme} {o : Option Char}
    (hscan : scanLine none t = .ok ⟨ls, o⟩) :
    (Phase.building d).takeReading (r.read env (.ok (continuationMark :: t))) =
      Lexer.takeContent (r.opened o (r.lineNumber + 1)) d (marker :: ls) := by
  have hline : scanLine r.scanner.openDelimiter (continuationMark :: t) =
      .ok ⟨marker :: ls, o⟩ := by
    rw [hopen]
    exact scanLine_mark.mpr ⟨ls, rfl, hscan⟩
  have hparts : LineParts.ofLexemes (marker :: ls) = ⟨[], marker :: ls⟩ := rfl
  have hadd : d.addLiminals [] = d := by simp [Draft.addLiminals]
  rw [read_of_scanLine env hactive rfl hline, hparts, Phase.takeReading_building, hadd]

theorem exists_scanLine_of_values {phase : Phase} {line : Text}
    (hline : Line.isDirective line = false) {vs : List (List Text)}
    (h : (phase.takeReading (r.read env (.ok line))).values = .ok vs) :
    ∃ ls o, scanLine none line = .ok ⟨ls, o⟩ := by
  have hcounted : isSuppressed { r with lineNumber := r.lineNumber + 1 } = false := hactive
  cases hscan : scanLine none line with
  | ok scanned => exact ⟨scanned.lexemes, scanned.openDelimiter, rfl⟩
  | error e =>
      have hscanner : r.scanner.scan line = (.error e, r.scanner) := by
        simp [Scanner.scan, hopen, hscan]
      have hread := readText_of_scan env hcounted hline
      dsimp only at hread
      rw [hscanner] at hread
      rw [read, hread] at h
      cases h

/-- A token behind a leading continuation mark, if anything at all. -/
theorem exists_of_values_marked {d : Draft} {t : Text} (ht : t.head?.any isWordy = true)
    {vs : List (List Text)}
    (h : ((Phase.building d).takeReading (r.read env (.ok (continuationMark :: t)))).values =
      .ok vs) :
    ∃ l ls o, scanLine none t = .ok ⟨l :: ls, o⟩ ∧ l.role = .semantic ∧
      l.text.head?.any isWordy = true ∧
      (Lexer.takeContent (r.opened o (r.lineNumber + 1)) d (marker :: l :: ls)).values =
        .ok vs := by
  obtain ⟨lexemes, o, hline⟩ := exists_scanLine_of_values env hactive hopen rfl h
  obtain ⟨behind, rfl, hscan⟩ := scanLine_mark.mp hline
  rw [takeReading_marked env hactive hopen d hscan] at h
  cases behind with
  | nil =>
      obtain ⟨front, _, hnil⟩ := scanLine_none_eq_ok.mp hscan
      simp at hnil
  | cons l ls =>
      obtain ⟨hl, hwordy, _⟩ := scanLine_wordy ht hscan
      exact ⟨l, ls, o, hscan, hl, hwordy, h⟩

end Reader

section Marked

variable (env : Environment) {r : Reader} (hactive : r.isSuppressed = false)
  (hmacros : r.macros = .empty) (hopen : r.scanner.openDelimiter = none)
include hactive hmacros hopen

/-- A token behind a leading continuation mark is seen in the values of its statement. -/
theorem values_takeReading_ne {d : Draft} {t : Text} (ht : t.head?.any isWordy = true) :
    ((Phase.building d).takeReading (r.read env (.ok (continuationMark :: t)))).values ≠
      .ok (d.statement?.toList.map Statement.values) := by
  intro h
  obtain ⟨l, ls, o, hscan, hl, hwordy, hvalues⟩ :=
    Reader.exists_of_values_marked env hactive hopen ht h
  rw [Draft.values_statement?] at hvalues
  have hunbound : (r.opened o (r.lineNumber + 1)).macros = .empty := hmacros
  by_cases hd : d.tokens = []
  · rw [if_pos hd] at hvalues
    rcases Lexer.values_of_marked hunbound hl hvalues with
      ⟨more, ss, hnil⟩ | ⟨front, x, m, e, o', more, ss, _, _, hnil⟩
    · cases hnil
    · cases hnil
  · rw [if_neg hd] at hvalues
    rcases Lexer.values_of_marked hunbound hl hvalues with
      ⟨more, ss, hrow⟩ | ⟨front, x, m, e, o', more, ss, hfront, hjoined, hrow⟩
    · simpa using (List.cons.inj hrow).1
    · have hm := (List.cons.inj hrow).1
      rw [hfront] at hm
      obtain ⟨hx, _⟩ := List.cons.inj (List.append_cancel_left hm)
      obtain ⟨z, hz, htext⟩ := exists_text_of_joined hwordy hjoined
      rw [← hx] at htext
      exact hz (by simpa using htext)

/-- A token stays in its place behind a leading continuation mark, whatever is joined with it. -/
theorem exists_values_of_marked {d : Draft} {front back : List Text} {x : Text}
    (hd : d.values = front ++ x :: back) {t : Text} (ht : t.head?.any isWordy = true)
    {vs : List (List Text)}
    (h : ((Phase.building d).takeReading (r.read env (.ok (continuationMark :: t)))).values =
      .ok vs) :
    ∃ z more ss, vs = (front ++ (x ++ z) :: more) :: ss := by
  obtain ⟨l, ls, o, hscan, hl, hwordy, hvalues⟩ :=
    Reader.exists_of_values_marked env hactive hopen ht h
  have hunbound : (r.opened o (r.lineNumber + 1)).macros = .empty := hmacros
  rcases Lexer.values_of_marked hunbound hl hvalues with
    ⟨more, ss, rfl⟩ | ⟨front', x', m, e, o', more, ss, hfront, hjoined, rfl⟩
  · exact ⟨[], back ++ l.text :: more, ss, by simp [hd]⟩
  · rw [hd] at hfront
    rcases List.eq_nil_or_concat back with rfl | ⟨back, y, rfl⟩
    · obtain ⟨rfl, hx⟩ := List.append_inj' hfront rfl
      obtain rfl := List.singleton_inj.mp hx
      obtain ⟨z, _, htext⟩ := exists_text_of_joined hwordy hjoined
      exact ⟨z, more, ss, by rw [htext]⟩
    · rw [List.concat_eq_append, ← List.cons_append, ← List.append_assoc] at hfront
      obtain ⟨rfl, _⟩ := List.append_inj' hfront rfl
      exact ⟨[], back ++ m.text :: more, ss, by simp⟩

/-- Behind a token that is cut off, the line that continues it gives what the whole token would have
given if its other part is a lexeme there, and only then. -/
theorem values_takeReading_marked {d : Draft} {k kind : Kind} {u v b : Text}
    (hv : v ≠ []) (hwordy : ∀ c ∈ v, isWordy c = true) {e : Lexeme} {o : Option Char}
    (hwhole : scanLine none (u ++ v ++ ['\n']) = .ok ⟨[⟨kind, u ++ v⟩, e], o⟩)
    {after : List Lexeme} {o' : Option Char} (hb : scanLine none b = .ok ⟨after, o'⟩)
    {r' : Reader} (hr' : r'.macros = .empty) {more : List Text} {ss : List (List Text)}
    (hvalues : (Lexer.takeOn r' (d.addToken (.ofLexeme ⟨kind, u ++ v⟩)) after).values =
      .ok ((d.values ++ (u ++ v) :: more) :: ss)) :
    ((Phase.building (d.cutOff [⟨k, u⟩])).takeReading
        (r.read env (.ok (continuationMark :: (v ++ b))))).values =
        .ok ((d.values ++ (u ++ v) :: more) :: ss) ↔
      ∃ l ls o, scanLine none (v ++ b) = .ok ⟨l :: ls, o⟩ ∧ l.text = v := by
  have ht := any_head?_append hv hwordy b
  constructor
  · intro h
    obtain ⟨l, ls, opened, hscan, hl, _, htaken⟩ :=
      Reader.exists_of_values_marked env hactive hopen ht h
    refine ⟨l, ls, opened, hscan, ?_⟩
    have hunbound : (r.opened opened (r.lineNumber + 1)).macros = .empty := hmacros
    have hcut : (d.cutOff [⟨k, u⟩]).values = d.values ++ [u] := d.values_cutOff _
    rcases Lexer.values_of_marked hunbound hl htaken with
      ⟨more', ss', hrow⟩ | ⟨front, x, m, e', o'', more', ss', hfront, hjoined, hrow⟩
    · -- the part cut off would be the whole token
      have hrow := (List.cons.inj hrow).1
      rw [hcut, List.append_assoc] at hrow
      obtain ⟨hu, _⟩ := List.cons.inj (List.append_cancel_left hrow)
      exact absurd hu (by simpa using hv)
    · rw [hcut] at hfront
      obtain ⟨rfl, hx⟩ := List.append_inj' hfront rfl
      obtain rfl := List.singleton_inj.mp hx
      obtain ⟨hm, _⟩ := List.cons.inj (List.append_cancel_left (List.cons.inj hrow).1)
      exact text_of_joined hv hwordy hscan hb hjoined hm.symm
  · rintro ⟨l, ls, opened, hscan, rfl⟩
    obtain ⟨hl, _, rest, _, hcut, _, hrest⟩ := scanLine_wordy ht hscan
    obtain rfl := List.append_cancel_left hcut
    obtain rfl : after = ls := by
      rw [hb] at hrest
      exact congrArg ScannedLine.lexemes (Except.ok.inj hrest)
    rw [Reader.takeReading_marked env hactive hopen _ hscan]
    have hsame : r'.macros = (r.opened opened (r.lineNumber + 1)).macros := hr'.trans hmacros.symm
    have hsemantic : l.isSemantic = true := by simp [isSemantic, hl]
    have hjoined : scanLine none ((Lexeme.mk k u).text ++ l.text ++ ['\n']) =
        .ok ⟨[⟨kind, u ++ l.text⟩, e], o⟩ := hwhole
    exact (Lexer.takeOn_alike_joined hsame d hsemantic hjoined after).values_eq hvalues

end Marked

namespace Lexer

section First

variable (env : Environment) {r : Reader} (hactive : r.isSuppressed = false)
  (hopen : r.scanner.openDelimiter = none) (d : Draft) {t : Text} {ls : List Lexeme}
  {l : Lexeme} (hl : l ∈ ls) (hsemantic : l.role = .semantic)
include hactive hopen hl hsemantic

theorem takeReading_first {o : Option Char} (hscan : scanLine none t = .ok ⟨ls, o⟩) :
    (Phase.building d).takeReading (r.read env (.ok t)) =
      Position.front.take (r.opened o (r.lineNumber + 1)) d ls := by
  have hdirective := isDirective_of_mem_scanLine hscan hl (by simp [isLiminal, hsemantic])
  rw [← hopen] at hscan
  rw [Reader.read_of_scanLine env hactive hdirective hscan]
  rfl

theorem values_assemble_open (hscan : scanLine none t = .ok ⟨ls, none⟩) {ss : List Statement}
    {d' : Draft} (htake : Position.front.take (r.opened none (r.lineNumber + 1)) d ls =
      ⟨ss, .ok (.building d'), []⟩) (line : SourceLine) :
    (assemble env [.ok t, line] r (.building d)).values =
      ((Phase.building d').takeReading
        ((r.opened none (r.lineNumber + 1)).read env line)).values.map
          (ss.map Statement.values ++ ·) := by
  have htaken := takeReading_first env hactive hopen d hl hsemantic hscan
  have hreader : (r.read env (.ok t)).reader = r.opened none (r.lineNumber + 1) := by
    have hdirective := isDirective_of_mem_scanLine hscan hl (by simp [isLiminal, hsemantic])
    rw [← hopen] at hscan
    rw [Reader.read_of_scanLine env hactive hdirective hscan, hopen]
  rw [htake] at htaken
  rw [assemble_cons htaken, Assembly.values_prepend, values_assemble_line, hreader]

end First

end Lexer

section Lines

variable (files : Files)

theorem tokenize_line {t : Text} (hline : '\n' ∉ t) {ls : List Lexeme} {o : Option Char}
    (hscan : scanLine none (t ++ ['\n']) = .ok ⟨ls, o⟩) {l : Lexeme} (hl : l ∈ ls)
    (hsemantic : l.role = .semantic) :
    tokenize files (t ++ ['\n']) =
      (Position.front.take ((Reader.start none .empty).opened o 1) (.ofLiminals []) ls).values := by
  have hsource := Source.ofText_line_append hline []
  rw [List.append_nil] at hsource
  rw [tokenize_eq_values, hsource]
  exact (values_assemble_line _ _ _ _).trans
    (congrArg Taking.values (Lexer.takeReading_first _ rfl rfl _ hl hsemantic hscan))

theorem tokenize_two_lines {t u : Text} (ht : '\n' ∉ t) (hu : '\n' ∉ u) {ls : List Lexeme}
    (hscan : scanLine none (t ++ ['\n']) = .ok ⟨ls, none⟩) {l : Lexeme} (hl : l ∈ ls)
    (hsemantic : l.role = .semantic) {ss : List Statement} {d : Draft}
    (htake : Position.front.take ((Reader.start none .empty).opened none 1) (.ofLiminals []) ls =
      ⟨ss, .ok (.building d), []⟩) :
    tokenize files (t ++ ['\n'] ++ continuationMark :: (u ++ ['\n'])) =
      ((Phase.building d).takeReading
        (((Reader.start none .empty).opened none 1).read (.ofConfiguration files .standard)
          (.ok (continuationMark :: (u ++ ['\n']))))).values.map
            (ss.map Statement.values ++ ·) := by
  have hmarked : '\n' ∉ continuationMark :: u := by
    simpa [continuationMark] using hu
  have hsource := Source.ofText_line_append hmarked []
  rw [List.append_nil, List.cons_append] at hsource
  rw [tokenize_eq_values, Source.ofText_line_append ht, hsource]
  exact Lexer.values_assemble_open _ rfl rfl _ hl hsemantic hscan htake _

variable {t u v : Text} (ht : '\n' ∉ t) (hu : '\n' ∉ u) (hv : '\n' ∉ v)
include ht hu hv

/-- A line that is cut off before it is divided, and a token that is seen only when it is. -/
theorem exists_tokenize_of_not_after (hwordy : (v ++ ['\n']).head?.any isWordy = true)
    {front rest rest' : List Lexeme} {o : Option Char} (hnone : Position.front.after front = none)
    (hscan : scanLine none (t ++ ['\n']) = .ok ⟨front ++ rest, o⟩) {l l' : Lexeme} (hl : l ∈ rest)
    (hsemantic : l.role = .semantic)
    (hcut : scanLine none (u ++ ['\n']) = .ok ⟨front ++ rest', none⟩) (hl' : l' ∈ rest')
    (hsemantic' : l'.role = .semantic) :
    ∃ values, tokenize files (t ++ ['\n']) = .ok values ∧
      tokenize files (u ++ ['\n'] ++ continuationMark :: (v ++ ['\n'])) ≠ .ok values := by
  have hfits : Position.front.Fits (.ofLiminals []) := rfl
  obtain ⟨ss, d, htake⟩ := Position.exists_of_not_after hfits hnone
  obtain ⟨liminals, hone⟩ := htake ((Reader.start none .empty).opened o 1) rfl rest
  obtain ⟨liminals', htwo⟩ := htake ((Reader.start none .empty).opened none 1) rfl rest'
  rw [tokenize_line files ht hscan (List.mem_append_right front hl) hsemantic, hone,
    tokenize_two_lines files hu hv hcut (List.mem_append_right front hl') hsemantic' htwo]
  refine ⟨ss.map Statement.values ++ d.statement?.toList.map Statement.values, ?_, ?_⟩
  · have hlast := (d.addLiminals liminals).values_statement?
    rw [d.values_statement?]
    simp only [Taking.values, Except.map, Phase.last, List.map_append, hlast]
    rfl
  · rw [Ne, map_append_eq_ok]
    have hne := values_takeReading_ne (.ofConfiguration files .standard)
      (r := (Reader.start none .empty).opened none 1) rfl rfl rfl
      (d := d.addLiminals liminals') hwordy
    rw [Draft.values_statement?] at hne ⊢
    exact hne

/-- A line with a token that no continuation mark cuts off, and the line divided there. -/
theorem exists_tokenize_of_after {front rest cut : List Lexeme} {o : Option Char} {l n : Lexeme}
    (hreached : (Position.front.after front).isSome) (hsemantic : l.role = .semantic)
    (hscan : scanLine none (t ++ ['\n']) = .ok ⟨front ++ l :: rest, o⟩)
    (hsemantic' : ∀ m ∈ n :: cut, m.role = .semantic)
    (hcut : scanLine none (u ++ ['\n']) =
      .ok ⟨front ++ n :: cut ++ [marker, ⟨.lineEnd, ['\n']⟩], none⟩) :
    ∃ (ss : List (List Text)) (d : Draft) (more : List Text) (rows : List (List Text)),
      (Lexer.takeOn ((Reader.start none .empty).opened o 1) (d.addToken (.ofLexeme l))
        rest).values = .ok ((d.values ++ l.text :: more) :: rows) ∧
      tokenize files (t ++ ['\n']) = .ok (ss ++ (d.values ++ l.text :: more) :: rows) ∧
      tokenize files (u ++ ['\n'] ++ continuationMark :: (v ++ ['\n'])) =
        ((Phase.building (d.cutOff (n :: cut))).takeReading
          (((Reader.start none .empty).opened none 1).read (.ofConfiguration files .standard)
            (.ok (continuationMark :: (v ++ ['\n']))))).values.map (ss ++ ·) := by
  have hfits : Position.front.Fits (.ofLiminals []) := rfl
  obtain ⟨q, hq⟩ := Option.isSome_iff_exists.mp hreached
  obtain ⟨ss, d, htake⟩ := Position.exists_takeOn_of_after hfits hq
  have hl : l.isSemantic = true := by simp [isSemantic, hsemantic]
  have hn : n.role = .semantic := hsemantic' n List.mem_cons_self
  obtain ⟨more, rows, hvalues⟩ := Lexer.exists_values_takeOn
    ((Reader.start none .empty).opened o 1) (d.tokens_addToken_ne_nil (.ofLexeme l)) rest
  have hrow : (d.addToken (.ofLexeme l)).values ++ more = d.values ++ l.text :: more := by
    rw [Draft.values_addToken, List.append_assoc]
    rfl
  rw [hrow] at hvalues
  refine ⟨ss.map Statement.values, d, more, rows, hvalues, ?_, ?_⟩
  · rw [tokenize_line files ht hscan (by simp) hsemantic, htake _ rfl l rest hl,
      Taking.values_prepend, Lexer.takeOn_semantic rfl d hsemantic, hvalues]
    rfl
  · have htwo := htake ((Reader.start none .empty).opened none 1) rfl n
      (cut ++ [marker, ⟨.lineEnd, ['\n']⟩]) (by simp [isSemantic, hn])
    rw [← List.cons_append, Lexer.takeOn_cutOff rfl d hsemantic', ← List.append_assoc] at htwo
    rw [tokenize_two_lines files hu hv hcut (by simp) hn htwo]
    simp

/-- A number that grows where the line is divided. -/
theorem exists_tokenize_of_point (hwordy : (v ++ ['\n']).head?.any isWordy = true)
    {front rest names : List Lexeme} {o : Option Char} {l : Lexeme} {x : Text}
    (hreached : (Position.front.after front).isSome) (hsemantic : l.role = .semantic)
    (hscan : scanLine none (t ++ ['\n']) = .ok ⟨front ++ l :: rest, o⟩) (hx : x ≠ [])
    (hnames : ∀ n ∈ names, n.role = .semantic)
    (hcut : scanLine none (u ++ ['\n']) =
      .ok ⟨front ++ ⟨.number, l.text ++ x⟩ :: names ++ [marker, ⟨.lineEnd, ['\n']⟩], none⟩) :
    ∃ values, tokenize files (t ++ ['\n']) = .ok values ∧
      tokenize files (u ++ ['\n'] ++ continuationMark :: (v ++ ['\n'])) ≠ .ok values := by
  have hall : ∀ n ∈ (⟨.number, l.text ++ x⟩ : Lexeme) :: names, n.role = .semantic := by
    intro n hn
    rcases List.mem_cons.mp hn with rfl | hn
    · rfl
    · exact hnames n hn
  obtain ⟨ss, d, more, rows, _, hone, htwo⟩ :=
    exists_tokenize_of_after files ht hu hv hreached hsemantic hscan hall hcut
  refine ⟨_, hone, fun hsame => ?_⟩
  rw [htwo, map_append_eq_ok] at hsame
  obtain ⟨z, more', ss', hrow⟩ := exists_values_of_marked (.ofConfiguration files .standard)
    (r := (Reader.start none .empty).opened none 1) rfl rfl rfl (d.values_cutOff _) hwordy hsame
  obtain ⟨htext, _⟩ := List.cons.inj (List.append_cancel_left (List.cons.inj hrow).1)
  have hnil : x ++ z = [] := by simpa using htext
  exact hx (List.append_eq_nil_iff.mp hnil).1

end Lines

/-- A token that no continuation mark cuts off, and its two parts. -/
theorem exists_tokenize_of_parts (files : Files) {t u p q b : Text} {k kind : Kind}
    {front after : List Lexeme} {e : Lexeme} {o o' o'' : Option Char} (ht : '\n' ∉ t)
    (hu : '\n' ∉ u) (hqb : '\n' ∉ q ++ b) (hq : q ≠ []) (hwordy : ∀ c ∈ q, isWordy c = true)
    (hreached : (Position.front.after front).isSome) (hkind : kind.role = .semantic)
    (hk : k.role = .semantic)
    (hscan : scanLine none (t ++ ['\n']) = .ok ⟨front ++ ⟨kind, p ++ q⟩ :: after, o⟩)
    (hcut : scanLine none (u ++ ['\n']) =
      .ok ⟨front ++ [⟨k, p⟩, marker, ⟨.lineEnd, ['\n']⟩], none⟩)
    (halone : scanLine none (p ++ q ++ ['\n']) = .ok ⟨[⟨kind, p ++ q⟩, e], o'⟩)
    (hb : scanLine none (b ++ ['\n']) = .ok ⟨after, o''⟩) :
    ∃ values, tokenize files (t ++ ['\n']) = .ok values ∧
      (tokenize files (u ++ ['\n'] ++ continuationMark :: (q ++ b ++ ['\n'])) = .ok values ↔
        ∃ l ls o, scanLine none (q ++ b ++ ['\n']) = .ok ⟨l :: ls, o⟩ ∧ l.text = q) := by
  have hrole : (Lexeme.mk kind (p ++ q)).role = .semantic := hkind
  have hpart : ∀ n ∈ [(⟨k, p⟩ : Lexeme)], n.role = .semantic := by
    intro n hn
    rw [List.mem_singleton.mp hn]
    exact hk
  have hcut' : scanLine none (u ++ ['\n']) =
      .ok ⟨front ++ [⟨k, p⟩] ++ [marker, ⟨.lineEnd, ['\n']⟩], none⟩ := by
    rw [hcut, List.append_assoc]
    rfl
  obtain ⟨ss, d, more, rows, hvalues, hone, htwo⟩ :=
    exists_tokenize_of_after files ht hu hqb hreached hrole hscan hpart hcut'
  have hsecond := values_takeReading_marked (.ofConfiguration files .standard)
    (r := (Reader.start none .empty).opened none 1) (k := k) rfl rfl rfl hq hwordy halone hb rfl
    hvalues
  refine ⟨_, hone, ?_⟩
  rw [htwo, map_append_eq_ok, List.append_assoc]
  exact hsecond

/-- A name, a number or an operator of a line without macros and directives is lexed, and lexed the
same when it is divided between two lines, if its second part is scanned as one lexeme behind the
mark on the second line, and only then; but not where a continuation mark in front of it cuts it off,
nor where it is a dotted operator behind digits, for they would take the point of its first part. -/
theorem tokenize_divided (files : Files) {a b u v : Text} {kind : Kind} (hkind : IsDivisible kind)
    (hline : '\n' ∉ a ++ (u ++ v) ++ b) (hu : u ≠ []) (hv : v ≠ []) {before after : List Lexeme}
    {o : Option Char} (hscan : scanLine none (a ++ (u ++ v) ++ b ++ ['\n']) =
      .ok ⟨before ++ ⟨kind, u ++ v⟩ :: after, o⟩) (ha : concat before = a) :
    ∃ values, tokenize files (a ++ (u ++ v) ++ b ++ ['\n']) = .ok values ∧
      (tokenize files (a ++ u ++ "&\n&".toList ++ v ++ b ++ ['\n']) = .ok values ↔
        (Position.front.after before).isSome ∧
        ¬(kind = .dotOperator ∧ ∃ l ∈ before.getLast?, ∀ c ∈ l.text, c.isDigit = true) ∧
        ∃ l ls o, scanLine none (v ++ b ++ ['\n']) = .ok ⟨l :: ls, o⟩ ∧ l.text = v) := by
  have hsplit : a ++ (u ++ v) ++ b ++ ['\n'] = a ++ ((u ++ v) ++ (b ++ ['\n'])) := by simp
  have hwhole := hscan
  rw [hsplit] at hwhole
  obtain ⟨hreads, hfirst, hb⟩ := exists_reads_of_scanLine hkind ha hwhole
  have hwordy := isWordy_of_mem hkind hfirst
  have hrole : (Lexeme.mk kind (u ++ v)).role = .semantic := by
    rcases hkind with rfl | rfl | rfl | rfl <;> rfl
  have halone := scanLine_alone hkind (List.append_ne_nil_of_left_ne_nil hu v) hfirst
  rw [List.append_assoc] at hreads hfirst
  have hclean : '\n' ∉ a ++ u := by
    simp only [List.mem_append, not_or] at hline ⊢
    exact ⟨hline.1.1, hline.1.2.1⟩
  have hfront : '\n' ∉ a ++ u ++ [continuationMark] := by
    simpa [continuationMark] using hclean
  have hback : '\n' ∉ v ++ b := by
    simp only [List.mem_append, not_or] at hline ⊢
    exact ⟨hline.1.2.2, hline.2⟩
  have hwordy' : ∀ c ∈ v, isWordy c = true := fun c hc => hwordy c (List.mem_append_right u hc)
  have hhead : (v ++ b ++ ['\n']).head?.any isWordy = true := by
    rw [List.append_assoc]
    exact any_head?_append hv hwordy' _
  have hcutText : a ++ u ++ "&\n&".toList ++ v ++ b ++ ['\n'] =
      a ++ u ++ [continuationMark] ++ ['\n'] ++ continuationMark :: (v ++ b ++ ['\n']) := by
    simp [continuationMark]
  rw [hcutText]
  by_cases hpoint : kind = .dotOperator ∧ ∃ l ∈ before.getLast?, ∀ c ∈ l.text, c.isDigit = true
  · -- up to the digits both lines scan alike, and the token that differs is their number
    obtain ⟨rfl, l, hlast, hdigits⟩ := hpoint
    obtain ⟨front, rfl⟩ := List.getLast?_eq_some_iff.mp hlast
    obtain ⟨hl, x, names, hx, hnames, hcut⟩ :=
      exists_scanLine_point ha hdigits hclean hu hv hreads hfirst
    have hfull : scanLine none (a ++ (u ++ v) ++ b ++ ['\n']) =
        .ok ⟨front ++ l :: ⟨.dotOperator, u ++ v⟩ :: after, o⟩ := by simpa using hscan
    obtain ⟨values, hone, htwo⟩ : ∃ values,
        tokenize files (a ++ (u ++ v) ++ b ++ ['\n']) = .ok values ∧
        tokenize files (a ++ u ++ [continuationMark] ++ ['\n'] ++
          continuationMark :: (v ++ b ++ ['\n'])) ≠ .ok values := by
      by_cases hreached : (Position.front.after front).isSome
      · exact exists_tokenize_of_point files hline hfront hback hhead hreached hl hfull hx hnames
          hcut
      · have hnone := Option.not_isSome_iff_eq_none.mp hreached
        rw [List.append_assoc front] at hcut
        exact exists_tokenize_of_not_after files hline hfront hback hhead hnone hfull
          List.mem_cons_self hl hcut List.mem_cons_self rfl
    exact ⟨values, hone, fun h => absurd h htwo, fun h => absurd ⟨rfl, l, hlast, hdigits⟩ h.2.1⟩
  · obtain ⟨k, hk, hcut⟩ := exists_scanLine_cut hkind ha hclean hu hreads hfirst hpoint
    by_cases hreached : (Position.front.after before).isSome
    · obtain ⟨values, hone, htwo⟩ := exists_tokenize_of_parts files hline hfront hback hv hwordy'
        hreached hrole hk hscan hcut halone hb
      exact ⟨values, hone, htwo.trans ⟨fun h => ⟨hreached, hpoint, h⟩, fun h => h.2.2⟩⟩
    · have hnone := Option.not_isSome_iff_eq_none.mp hreached
      obtain ⟨values, hone, htwo⟩ := exists_tokenize_of_not_after files hline hfront hback hhead
        hnone hscan List.mem_cons_self hrole hcut List.mem_cons_self hk
      exact ⟨values, hone, fun h => absurd h htwo, fun h => absurd h.1 hreached⟩

theorem eq_ok_of_toOption {ε α : Type} {x : Except ε α} {a : α} (h : x.toOption = some a) :
    x = .ok a := by
  cases x with
  | error e => cases h
  | ok b => exact congrArg Except.ok (Option.some.inj h)

/-- A name divided behind a separator and a continuation mark that cuts nothing off. -/
theorem tokenize_divided_behind_separator :
    tokenize .none "1; &x&\n&_2 = y\n".toList = tokenize .none "1; &x_2 = y\n".toList ∧
      (tokenize .none "1; &x_2 = y\n".toList).toOption =
        some [["1".toList], ["x_2".toList, "=".toList, "y".toList]] := by
  have hscan : scanLine none ("1; &".toList ++ ("x".toList ++ "_2".toList) ++ " = y".toList ++
      ['\n']) = .ok ⟨[⟨.number, "1".toList⟩, ⟨.separator, ";".toList⟩, ⟨.whitespace, " ".toList⟩,
        marker] ++ ⟨.name, "x".toList ++ "_2".toList⟩ :: [⟨.whitespace, " ".toList⟩,
          ⟨.punctuation, "=".toList⟩, ⟨.whitespace, " ".toList⟩, ⟨.name, "y".toList⟩,
          ⟨.lineEnd, ['\n']⟩], none⟩ :=
    eq_ok_of_toOption (by decide +kernel)
  have hbehind : scanLine none ("_2".toList ++ " = y".toList ++ ['\n']) =
      .ok ⟨⟨.name, "_2".toList⟩ :: [⟨.whitespace, " ".toList⟩, ⟨.punctuation, "=".toList⟩,
        ⟨.whitespace, " ".toList⟩, ⟨.name, "y".toList⟩, ⟨.lineEnd, ['\n']⟩], none⟩ :=
    eq_ok_of_toOption (by decide +kernel)
  obtain ⟨values, hwhole, hdivided⟩ := tokenize_divided .none (.inl rfl) (by decide) (by decide)
    (by decide) hscan rfl
  refine ⟨?_, by decide +kernel⟩
  exact (hdivided.mpr ⟨rfl, by simp, _, _, none, hbehind, rfl⟩).trans hwhole.symm

/-- A name whose second part is two lexemes, a dotted operator behind digits, and a name that a
continuation mark cuts off. -/
theorem tokenize_divided_differs :
    ((scanLine none "a1b\n".toList).toOption.map ScannedLine.lexemes =
        some [⟨.name, "a1b".toList⟩, ⟨.lineEnd, ['\n']⟩] ∧
      (tokenize .none "a1b\n".toList).toOption = some [["a1b".toList]] ∧
      (tokenize .none "a&\n&1b\n".toList).toOption = some [["a1".toList, "b".toList]]) ∧
    ((scanLine none "1.eq.\n".toList).toOption.map ScannedLine.lexemes =
        some [⟨.number, "1".toList⟩, ⟨.dotOperator, ".eq.".toList⟩, ⟨.lineEnd, ['\n']⟩] ∧
      (tokenize .none "1.eq.\n".toList).toOption = some [["1".toList, ".eq.".toList]] ∧
      (tokenize .none "1.eq&\n&.\n".toList).toOption =
        some [["1.e".toList, "q".toList, ".".toList]]) ∧
    (scanLine none "x & ab\n".toList).toOption.map ScannedLine.lexemes =
        some [⟨.name, "x".toList⟩, ⟨.whitespace, " ".toList⟩, marker, ⟨.whitespace, " ".toList⟩,
          ⟨.name, "ab".toList⟩, ⟨.lineEnd, ['\n']⟩] ∧
      (tokenize .none "x & ab\n".toList).toOption = some [["x".toList]] ∧
      (tokenize .none "x & a&\n&b\n".toList).toOption = some [["x".toList, "b".toList]] := by
  decide +kernel

end FreeForm
