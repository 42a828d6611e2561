import FreeForm.Proofs.Lexer.ContinuedLine
import FreeForm.Proofs.Scan.PlainFront
import FreeForm.Proofs.Text.Encoding

namespace FreeForm

/-!
# The end of a statement

A separator and a line end complete a statement alike. What stands behind the separator is taken
from the same row as the statement in front of it, what stands behind a line end from a row of its
own. Either way the statement holds the same tokens, and unless the next row starts with a
continuation mark or a directive the next statement starts at the first token behind.
-/

open Lexeme Line

namespace Lexer

theorem takeOn_append_of_liminal (r : Reader) {d : Draft} (hd : d.tokens = []) {ls : List Lexeme}
    (hls : ∀ l ∈ ls, l.isLiminal = true) (rest : List Lexeme) :
    takeOn r d (ls ++ rest) = takeOn r (d.addLiminals (ls.map Lexeme.text)) rest := by
  induction ls generalizing d with
  | nil => simp [Draft.addLiminals]
  | cons l ls ih =>
      obtain ⟨hl, hls⟩ := List.forall_mem_cons.mp hls
      have hbehind := ih (d := d.addLiminals [l.text]) hd hls
      rw [List.cons_append, takeOn_liminal hd hl, hbehind]
      simp [Draft.addLiminals]

theorem takeOn_of_liminal (r : Reader) {d : Draft} (hd : d.tokens = []) {ls : List Lexeme}
    (hls : ∀ l ∈ ls, l.isLiminal = true) :
    takeOn r d ls = ⟨[], .ok (.building (d.addLiminals (ls.map Lexeme.text))), []⟩ := by
  have hnone : (d.addLiminals (ls.map Lexeme.text)).statement? = none :=
    Draft.statement?_eq_none_iff_tokens.mpr hd
  have htaken := takeOn_append_of_liminal r hd hls []
  rw [List.append_nil] at htaken
  rw [htaken]
  simp [takeOn, Draft.take, hnone]

/-- Liminal text behind a token completes its statement. -/
theorem exists_takeOn_liminal (r : Reader) {d : Draft} (hd : d.tokens ≠ []) {ls : List Lexeme}
    (hls : ∀ l ∈ ls, l.isLiminal = true) :
    ∃ s, s.bare = d.bare ∧ takeOn r d ls = ⟨[], .ok (.complete s []), []⟩ := by
  induction ls generalizing d with
  | nil =>
      obtain ⟨s, hs, hbare⟩ := Draft.exists_statement? hd
      refine ⟨s, hbare, ?_⟩
      simp [takeOn, Draft.take, hs]
  | cons l ls ih =>
      obtain ⟨hl, hbehind⟩ := List.forall_mem_cons.mp hls
      have hpassed := ih (d := d.addLiminals [l.text]) hd hbehind
      cases hrole : l.role with
      | whitespace =>
          rw [takeOn_plain d (.inl hrole)]
          exact hpassed
      | comment =>
          rw [takeOn_plain d (.inr hrole)]
          exact hpassed
      | separator =>
          -- a separator takes all that stands behind it up to the next token
          have hnone : (l :: ls).dropWhile (fun m => m.isLiminal || m.isContinuation) = [] :=
            List.dropWhile_eq_nil_iff.mpr fun m hm => by simp [hls m hm]
          obtain ⟨s, hs, hbare⟩ := Draft.exists_statement? (d := d.addLiminals
            (((l :: ls).takeWhile fun m => m.isLiminal || m.isContinuation).map Lexeme.text)) hd
          refine ⟨s, hbare, ?_⟩
          simp only [takeOn, Draft.take, hrole, hs, hnone]
          rfl
      | continuation => simp [isLiminal, hrole] at hl
      | semantic => simp [isLiminal, hrole] at hl

/-- Behind a separator, in liminal text behind a token, the next token starts a statement. -/
theorem exists_takeOn_separated (r : Reader) {d : Draft} (hd : d.tokens ≠ []) {ls : List Lexeme}
    (hls : ∀ l ∈ ls, l.isLiminal = true) {k : Lexeme} (hk : k ∈ ls)
    (hseparator : k.role = .separator) {m : Lexeme} (hm : m.isSemantic = true) (rest : List Lexeme) :
    ∃ s, s.bare = d.bare ∧ takeOn r d (ls ++ m :: rest) =
      (takeContent r (.ofLiminals []) (m :: rest)).prepend [s] [] := by
  induction ls generalizing d with
  | nil => cases hk
  | cons l ls ih =>
      obtain ⟨hl, hbehind⟩ := List.forall_mem_cons.mp hls
      have hpassed : k ≠ l → ∃ s, s.bare = d.bare ∧
          takeOn r (d.addLiminals [l.text]) (ls ++ m :: rest) =
            (takeContent r (.ofLiminals []) (m :: rest)).prepend [s] [] := fun hne =>
        ih (d := d.addLiminals [l.text]) hd hbehind ((List.mem_cons.mp hk).resolve_left hne)
      rw [List.cons_append]
      cases hrole : l.role with
      | whitespace =>
          rw [takeOn_plain d (.inl hrole)]
          exact hpassed fun heq => by simp [heq, hrole] at hseparator
      | comment =>
          rw [takeOn_plain d (.inr hrole)]
          exact hpassed fun heq => by simp [heq, hrole] at hseparator
      | separator =>
          have hdrop : (ls ++ m :: rest).dropWhile (!·.isSemantic) = m :: rest := by
            rw [List.dropWhile_append_of_pos fun n hn => ?_,
              List.dropWhile_cons_of_neg (by simp [hm])]
            rw [isSemantic_eq, hbehind n hn]
            rfl
          obtain ⟨s, hs, hbare⟩ := Draft.exists_statement? (d := d.addLiminals
            (((l :: (ls ++ m :: rest)).takeWhile (!·.isSemantic)).map Lexeme.text)) hd
          refine ⟨s, hbare, ?_⟩
          rw [takeOn_separator hrole (by simp [hdrop]) hs, hdrop]
      | continuation => simp [isLiminal, hrole] at hl
      | semantic => simp [isLiminal, hrole] at hl

end Lexer

namespace Phase

/-- In front of a statement, a row without a leading mark is taken from its front on. -/
theorem takeParts_unmarked (r : Reader) {d : Draft} (hd : d.tokens = []) {row : List Lexeme}
    (hrow : Unmarked row) : (building d).takeParts r (.ofLexemes row) = Lexer.takeOn r d row := by
  cases hrow with
  | liminal hls =>
      rw [LineParts.ofLexemes_of_liminal hls, Lexer.takeOn_of_liminal r hd hls]
      rfl
  | @token lead hlead l hl rest =>
      obtain ⟨hcontent, hmark⟩ := not_of_isSemantic hl
      have hdrop : (lead ++ l :: rest).dropWhile (·.isLiminal) = l :: rest := by
        rw [List.dropWhile_append_of_pos hlead, List.dropWhile_cons_of_neg (by simp [hcontent])]
      exact takeParts_ofLexemes r hd hdrop hmark

/-- Behind a statement that a line end completed, a row is taken as behind a separator. -/
theorem exists_takeOn_ended (r : Reader) (d : Draft) {back : List Lexeme}
    (hback : ∀ l ∈ back, l.isLiminal = true) {e : Lexeme} (he : e.isLiminal = true) :
    ∃ p, Lexer.takeOn r d (back ++ [e]) = ⟨[], .ok p, []⟩ ∧
      ∀ (r' r'' : Reader) {row : List Lexeme}, r'.macros = r''.macros → Unmarked row →
        (Lexer.takeOn r' d (back ++ separator :: row)).Alike
          (p.takeParts r'' (.ofLexemes row)) := by
  have hend : ∀ l ∈ back ++ [e], l.isLiminal = true :=
    List.forall_mem_append.mpr ⟨hback, List.forall_mem_singleton.mpr he⟩
  have hgap : ∀ l ∈ back ++ [separator], l.isLiminal = true :=
    List.forall_mem_append.mpr ⟨hback, List.forall_mem_singleton.mpr rfl⟩
  have hrow' : ∀ row, back ++ separator :: row = back ++ [separator] ++ row := by simp
  by_cases hd : d.tokens = []
  · refine ⟨_, Lexer.takeOn_of_liminal r hd hend, fun r' r'' row hmacros hrow => ?_⟩
    have hnext := takeParts_unmarked r''
      (d := d.addLiminals ((back ++ [e]).map Lexeme.text)) hd hrow
    -- no token stands in front of the next row, so that liminal text there makes no difference
    have halike : ∀ xs ys, (d.addLiminals xs).Alike (d.addLiminals ys) :=
      fun xs ys => Draft.alike_of_tokens_nil hd hd
    rw [hnext, hrow', Lexer.takeOn_append_of_liminal r' hd hgap]
    exact Lexer.takeOn_alike hmacros (halike _ _) row
  · obtain ⟨s, hs, hcomplete⟩ := Lexer.exists_takeOn_liminal r hd hend
    refine ⟨_, hcomplete, fun r' r'' row hmacros hrow => ?_⟩
    cases hrow with
    | liminal hls =>
        obtain ⟨s', hs', hcomplete'⟩ :=
          Lexer.exists_takeOn_liminal r' hd (List.forall_mem_append.mpr ⟨hgap, hls⟩)
        rw [hrow', hcomplete', LineParts.ofLexemes_of_liminal hls]
        exact ⟨rfl, .ok (.complete (hs'.trans hs.symm) _ _)⟩
    | @token lead hlead l hl rest =>
        obtain ⟨s', hs', hseparated⟩ := Lexer.exists_takeOn_separated r' hd
          (List.forall_mem_append.mpr ⟨hgap, hlead⟩) (k := separator) (by simp) rfl hl rest
        rw [List.append_assoc] at hseparated
        rw [hrow', hseparated, LineParts.ofLexemes_append hlead (not_of_isSemantic hl).1]
        have halike := Lexer.takeContent_alike hmacros (Draft.alike_ofLiminals [] []) (l :: rest)
        exact halike.prepend (by simp [hs, hs']) _ _

/-- A line without a leading mark, in front of which no token stands. -/
theorem takeReading_unmarked (env : Environment) {r : Reader} (hactive : r.isSuppressed = false)
    (hopen : r.scanner.openDelimiter = none) {line : Text}
    (hdirective : isDirective line = false) {row : List Lexeme} {o : Option Char}
    (hscan : scanLine none line = .ok ⟨row, o⟩) (hrow : Unmarked row) {d : Draft}
    (hd : d.tokens = []) :
    (r.read env (.ok line)).reader = r.opened o (r.lineNumber + 1) ∧
      (building d).takeReading (r.read env (.ok line)) =
        Lexer.takeOn (r.opened o (r.lineNumber + 1)) d row := by
  rw [← hopen] at hscan
  rw [Reader.read_of_scanLine env hactive hdirective hscan]
  exact ⟨rfl, takeParts_unmarked _ hd hrow⟩

theorem last_addLiminals (p : Phase) (liminals : List Text) :
    (p.addLiminals liminals).last.map Statement.bare = p.last.map Statement.bare := by
  cases p with
  | complete s ahead => simp [addLiminals, last]
  | building d =>
      by_cases hd : d.tokens = []
      · have hnone : (d.addLiminals liminals).statement? = none :=
          Draft.statement?_eq_none_iff_tokens.mpr hd
        simp [addLiminals, last, hnone, Draft.statement?_eq_none_iff_tokens.mpr hd]
      · obtain ⟨s, hs, hbare⟩ := Draft.exists_statement? hd
        obtain ⟨s', hs', hbare'⟩ := Draft.exists_statement? (d := d.addLiminals liminals) hd
        simp [addLiminals, last, hs, hs', hbare, hbare']

end Phase

/-- The first line of a text, which is empty if there is none, goes on with what stands in front of
the text. -/
theorem Source.exists_ofText_front (t : Text) :
    ∃ line lines, line <+: t ∧
      (∀ x : Text, x ≠ [] → '\n' ∉ x → ofText (x ++ t) = .ok (x ++ line) :: lines) ∧
      (line = [] ∧ lines = [] ∧ ofText t = [] ∨ ofText t = .ok line :: lines) := by
  have hflatten := splitAfter_flatten '\n' t
  cases hlines : splitAfter '\n' t with
  | nil =>
      refine ⟨[], [], List.nil_prefix, fun x hne hx => ?_, .inl ⟨rfl, rfl, ?_⟩⟩
      · rw [ofText, Text.lines, splitAfter_append_of_not_mem hne hx, hlines, List.append_nil]
        rfl
      · rw [ofText, Text.lines, hlines]
        rfl
  | cons line lines =>
      rw [hlines, List.flatten_cons] at hflatten
      refine ⟨line, lines.map .ok, ⟨_, hflatten⟩, fun x hne hx => ?_, .inr ?_⟩
      · rw [ofText, Text.lines, splitAfter_append_of_not_mem hne hx, hlines]
        rfl
      · rw [ofText, Text.lines, hlines]
        rfl

/-- A text that starts, behind blanks, with no directive, continuation mark or separator. -/
def StartsPlain (t : Text) : Prop :=
  ∀ c ∈ (t.dropWhile isBlank).head?, c ≠ '#' ∧ c ≠ '&' ∧ c ≠ ';'

theorem StartsPlain.of_append {t u : Text} (h : StartsPlain (t ++ u)) : StartsPlain t :=
  fun c hc => h c (head?_dropWhile_append hc u)

theorem StartsPlain.isDirective {line : Text} (h : StartsPlain line) :
    Line.isDirective line = false := by
  rw [Line.isDirective, beq_eq_false_iff_ne]
  exact fun heq => (h _ heq).1 rfl

theorem StartsPlain.opensWithMark {line : Text} (h : StartsPlain line) :
    Line.opensWithMark line = false :=
  not_opensWithMark fun c hc => (h c hc).2

theorem Line.isDirective_of_isPlain {t : Text} (ht : IsPlain t) {c : Char} (hc : isBlank c = false)
    (hmark : c ≠ directiveMark) (u : Text) : isDirective (t ++ c :: u) = false := by
  rw [isDirective, beq_eq_false_iff_ne, List.dropWhile_append]
  split
  · rw [List.dropWhile_cons_of_neg (by simp [hc])]
    exact fun heq => hmark (Option.some.inj heq)
  · rename_i hne
    obtain ⟨d, rest, hdrop⟩ := List.exists_cons_of_ne_nil
      (l := t.dropWhile isBlank) fun hnil => hne (by rw [hnil]; rfl)
    rw [hdrop]
    intro heq
    have hmem : d ∈ t := (List.dropWhile_sublist _).mem (hdrop ▸ List.mem_cons_self)
    exact ht d hmem (by rw [Option.some.inj heq]; decide)

namespace Lexer

/-- Lexemes without marks are some up to a token, and liminal text. -/
theorem exists_liminal_back {ls : List Lexeme} (hls : ∀ l ∈ ls, l.isContinuation = false) :
    ∃ front back, ls = front ++ back ∧ (∀ l ∈ front.getLast?, l.isSemantic = true) ∧
      ∀ l ∈ back, l.isLiminal = true := by
  have hliminal : ∀ l ∈ ls, l.isSemantic = false → l.isLiminal = true := by
    intro l hl hsemantic
    have hmark := hls l hl
    cases hcase : l.role <;> simp_all [isLiminal, isSemantic, isContinuation]
  cases hlast : (ls.filter (·.isSemantic)).getLast? with
  | none =>
      refine ⟨[], ls, rfl, by simp, fun l hl => hliminal l hl ?_⟩
      have hnone := List.filter_eq_nil_iff.mp (List.getLast?_eq_none_iff.mp hlast) l hl
      exact Bool.eq_false_iff.mpr hnone
  | some last =>
      obtain ⟨front, back, rfl, hback⟩ := exists_of_getLast?_filter hlast
      refine ⟨front ++ [last], back, rfl, ?_, fun l hl => ?_⟩
      · intro l hl
        rw [List.getLast?_concat] at hl
        rw [← Option.some.inj hl]
        exact (List.mem_filter.mp (List.mem_of_getLast? hlast)).2
      · exact hliminal l (List.mem_append_right _ hl) (hback l hl)

section Front

variable (env : Environment) {r : Reader} (hactive : r.isSuppressed = false)
  (hopen : r.scanner.openDelimiter = none) {front : Text} (hfront : IsPlain front)
include hactive hopen hfront

/-- A plain line is taken, and the text behind it is taken from a row of its own as it is behind a
separator on the same line. -/
theorem exists_assemble_ended {ls : List Lexeme} {opened : Option Char}
    (hscan : scanFresh (fun _ => none) front = ⟨ls, opened, []⟩) :
    ∃ p ss es,
      (∀ lines, assemble env (.ok (front ++ ['\n']) :: lines) r (.building (.ofLiminals [])) =
        (assemble env lines (r.opened none (r.lineNumber + 1)) p).prepend ss es) ∧
      ∀ line lines, StartsPlain line →
        (assemble env (.ok (front ++ ';' :: line) :: lines) r
          (.building (.ofLiminals []))).tokens? =
        (assemble env (.ok line :: lines) (r.opened none (r.lineNumber + 1)) p).tokens?.map
          (ss.map Statement.bare ++ ·) := by
  have hmarks : ∀ l ∈ ls, l.isContinuation = false :=
    fun l hl => isContinuation_of_isPlain hfront hscan hl
  -- up to its last token the line is taken alike whatever stands behind it
  obtain ⟨tokens, back, rfl, hlast, hback⟩ := exists_liminal_back hmarks
  obtain ⟨ss, d, htake⟩ := exists_takeOn_front r.macros
    (fun l hl => hmarks l (List.mem_append_left back hl)) hlast (.ofLiminals [])
  obtain ⟨p, hp, hbehind⟩ := Phase.exists_takeOn_ended (r.opened none (r.lineNumber + 1)) d hback
    (e := ⟨.lineEnd, ['\n']⟩) rfl
  obtain ⟨es, hes⟩ := htake (r.opened none (r.lineNumber + 1)) rfl (back ++ [⟨.lineEnd, ['\n']⟩])
  have hstart : ∀ row, Unmarked row → Unmarked (tokens ++ back ++ row) :=
    fun row hrow => hrow.append hmarks
  refine ⟨p, ss, es, fun lines => ?_, fun line lines hline => ?_⟩
  · have hdirective := isDirective_of_isPlain hfront (c := '\n') rfl (by decide) []
    have hrow := hstart [⟨.lineEnd, ['\n']⟩] (.liminal (List.forall_mem_singleton.mpr rfl))
    obtain ⟨hreader, htaken⟩ := Phase.takeReading_unmarked env hactive hopen hdirective
      (scanLine_ended hfront hscan) hrow (d := .ofLiminals []) rfl
    rw [List.append_assoc, hes, hp, Taking.prepend, List.append_nil, List.append_nil] at htaken
    rw [assemble_cons htaken, hreader]
  · have hdirective := isDirective_of_isPlain hfront (c := ';') rfl (by decide) line
    rcases scanLine_separated hfront hscan line with
      ⟨f, f', hown, hwhole⟩ | ⟨ms, o, hms, hown, hwhole⟩
    · rw [← hopen] at hwhole
      rw [Assembly.tokens?_of_unscanned env hactive hwhole,
        Assembly.tokens?_of_unscanned env (r := r.opened none (r.lineNumber + 1)) hactive hown]
      rfl
    · have hrow := unmarked_of_scanLine hown hline.opensWithMark
      obtain ⟨hreader, htaken⟩ := Phase.takeReading_unmarked env hactive hopen hdirective hwhole
        (hstart _ (hrow.cons rfl)) (d := .ofLiminals []) rfl
      obtain ⟨es', hes'⟩ := htake (r.opened o (r.lineNumber + 1)) rfl
        (back ++ separator :: (ms ++ [⟨.lineEnd, terminator line⟩]))
      rw [List.append_assoc, hes'] at htaken
      have hread := Reader.read_of_scanLine env (r := r.opened none (r.lineNumber + 1)) hactive
        hline.isDirective hown
      have hreaders : (r.opened o (r.lineNumber + 1)).SameButLine
          ((r.opened none (r.lineNumber + 1)).opened o (r.lineNumber + 2)) := rfl
      have htakings := hbehind (r.opened o (r.lineNumber + 1))
        ((r.opened none (r.lineNumber + 1)).opened o (r.lineNumber + 2)) rfl hrow
      have hgoes := htakings.followedBy hreaders lines fun p q hpq =>
        assemble_alike (Reader.readsAlike_sameButLine env) lines hreaders hpq
      rw [assemble, assemble, htaken, hreader, hread, Taking.followedBy_prepend,
        Assembly.tokens?_prepend]
      exact congrArg (Option.map (ss.map Statement.bare ++ ·)) hgoes.tokens?

omit hfront in
/-- A line without anything on it completes nothing. -/
theorem tokens?_assemble_nil (p : Phase) :
    (assemble env [.ok []] r p).tokens? = (assemble env [] r p).tokens? := by
  have hscan : scanLine r.scanner.openDelimiter [] = .ok ⟨[⟨.lineEnd, []⟩], none⟩ := by
    rw [hopen]
    exact scanLine_none_eq_ok.mpr ⟨[], scanFresh_nil, rfl⟩
  have htaken : p.takeReading (r.read env (.ok [])) = ⟨[], .ok (p.addLiminals [[]]), []⟩ := by
    rw [Reader.read_of_scanLine env hactive rfl hscan]
    rfl
  rw [assemble_cons htaken]
  simp [assemble, Assembly.tokens?, Except.toOption, Phase.last_addLiminals]

/-- A separator behind a plain text and a line end there read alike. -/
theorem tokens?_assemble_separated {rest : Text} (hrest : StartsPlain rest) :
    (assemble env (.ofText (front ++ ";".toList ++ rest)) r
      (.building (.ofLiminals []))).tokens? =
    (assemble env (.ofText (front ++ "\n".toList ++ rest)) r
      (.building (.ofLiminals []))).tokens? := by
  have hfeed : '\n' ∉ front := hfront.not_mem (by decide)
  obtain ⟨line, lines, ⟨more, hmore⟩, hcut, hlines⟩ := Source.exists_ofText_front rest
  have hwhole : Source.ofText (front ++ ";".toList ++ rest) =
      .ok (front ++ ';' :: line) :: lines := by
    have happended := hcut (front ++ [';']) (by simp) (by simpa using hfeed)
    simpa using happended
  have hended : Source.ofText (front ++ "\n".toList ++ rest) =
      .ok (front ++ ['\n']) :: Source.ofText rest := Source.ofText_line_append hfeed rest
  rw [hwhole, hended]
  by_cases hscan : (scanFresh (fun _ => none) front).rest = []
  · have hfresh : scanFresh (fun _ => none) front = ⟨(scanFresh (fun _ => none) front).lexemes,
        (scanFresh (fun _ => none) front).openDelimiter, []⟩ := by
      rw [← hscan]
    obtain ⟨p, ss, es, hfirst, hsecond⟩ :=
      exists_assemble_ended env hactive hopen hfront hfresh
    have hline : StartsPlain line := by
      rw [← hmore] at hrest
      exact hrest.of_append
    rw [hsecond line lines hline, hfirst, Assembly.tokens?_prepend]
    congr 1
    rcases hlines with ⟨rfl, rfl, hnone⟩ | hlines
    · rw [hnone]
      exact tokens?_assemble_nil env (r := r.opened none (r.lineNumber + 1)) hactive rfl p
    · rw [hlines]
  · obtain ⟨e, he⟩ := exists_error_of_rest hscan (congrArg Prod.fst (split_separated hfront line))
    have hreturn : '\r' ∉ front := hfront.not_mem (by decide)
    obtain ⟨f, hf⟩ := exists_error_of_rest hscan
      (congrArg Prod.fst (split_append_of_not_mem hfeed hreturn ['\n']))
    rw [← hopen] at he hf
    rw [Assembly.tokens?_of_unscanned env hactive he, Assembly.tokens?_of_unscanned env hactive hf]

end Front

/-- A separator and a line end complete a statement alike: behind a plain text either may stand in
front of anything but a directive, a continuation mark or another separator. -/
theorem run_of_separated (env : Environment) (macros : MacroTable) (name : Option Path)
    {front rest : Text} (hfront : ∀ c ∈ front, c ∉ ['\n', '\r', '\'', '"', '!', '#', '&'])
    (hrest : ∀ c ∈ (rest.dropWhile isBlank).head?, c ≠ '#' ∧ c ≠ '&' ∧ c ≠ ';') :
    ((start (.ofText (front ++ ";".toList ++ rest)) macros name).run env).tokens? =
      ((start (.ofText (front ++ "\n".toList ++ rest)) macros name).run env).tokens? := by
  rw [tokens?_run, tokens?_run]
  exact tokens?_assemble_separated env (r := .start name macros) rfl rfl hfront hrest

/-- A macro with an empty body stands on both sides of a separator, and the text behind the end of
the statement holds a comment, a divided token and a directive. -/
theorem run_of_separated_behind_macros :
    ((start (.ofText ("N; x = M ;\tN y".toList ++ ";".toList ++
        " ! c\n\tz&\n &1 = 'a;b'\n#undef N\nN\n".toList))
        ((MacroTable.empty.insert "N".toList []).insert "M".toList
          [⟨.name, ['a']⟩, ⟨.punctuation, ['+']⟩]) none).run
          ⟨.none, [], 0, none⟩).tokens?.map (·.map (·.map Token.value)) =
      some [["x".toList, "=".toList, "a".toList, "+".toList], ["y".toList],
        ["z1".toList, "=".toList, "'a;b'".toList], ["N".toList]] ∧
    ((start (.ofText ("N; x = M ;\tN y".toList ++ ";".toList ++
        " ! c\n\tz&\n &1 = 'a;b'\n#undef N\nN\n".toList))
        ((MacroTable.empty.insert "N".toList []).insert "M".toList
          [⟨.name, ['a']⟩, ⟨.punctuation, ['+']⟩]) none).run
          ⟨.none, [], 0, none⟩).tokens? =
      ((start (.ofText ("N; x = M ;\tN y".toList ++ "\n".toList ++
        " ! c\n\tz&\n &1 = 'a;b'\n#undef N\nN\n".toList))
        ((MacroTable.empty.insert "N".toList []).insert "M".toList
          [⟨.name, ['a']⟩, ⟨.punctuation, ['+']⟩]) none).run
          ⟨.none, [], 0, none⟩).tokens? := by
  have hfront : "N; x = M ;\tN y".toList.all
      (fun c => decide (c ∉ ['\n', '\r', '\'', '"', '!', '#', '&'])) = true := by decide
  have hrest : (" ! c\n\tz&\n &1 = 'a;b'\n#undef N\nN\n".toList.dropWhile isBlank).head? =
      some '!' := by decide
  refine ⟨by decide +kernel, run_of_separated _ _ _ (fun c hc => ?_) fun c hc => ?_⟩
  · exact of_decide_eq_true (List.all_eq_true.mp hfront c hc)
  · rw [hrest] at hc
    obtain rfl := Option.some.inj hc
    decide

end Lexer

end FreeForm
