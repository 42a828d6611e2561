import FreeForm.Proofs.Lexer.Composition
import FreeForm.Proofs.Lexer.LineEnds
import FreeForm.Proofs.Reader.IdleLine

namespace FreeForm

/-!
# String literals over several lines

A string literal may be divided anywhere, between the halves of a doubled delimiter too, and its
parts be put on continued lines, with blank and comment lines between them. The parts are joined
again line by line. This works as long as what has been joined so far does not end as a line with a
continuation mark would.
-/

open Lexeme Line

/-- A literal with the given content, in which the delimiter is doubled. -/
def Lexeme.literal (q : Char) (content : Text) : Text :=
  q :: ((content.flatMap fun c => if c = q then [c, c] else [c]) ++ [q])

/-- What separates a part of a token from the part in front of it: a trailing continuation mark with
blanks behind it, lines that are blank or hold a comment, and an indented continuation mark. -/
structure Seam where
  blanks : Text
  between : List Text
  indent : Text
  part : Text
  all_blanks : blanks.all isBlank = true
  all_indent : indent.all isBlank = true
  skipped : ∀ line ∈ between, '\n' ∉ line ∧ (line.dropWhile isBlank).head?.all (· == '!') = true
  part_ne_nil : part ≠ []

/-- Parts on lines of their own, behind the front of the first line. -/
def continuedText (front : Text) : List Seam → Text
  | [] => front ++ ['\n']
  | s :: seams =>
      front ++ continuationMark :: s.blanks ++ ['\n'] ++
        s.between.flatMap (· ++ ['\n']) ++
        continuedText (s.indent ++ continuationMark :: s.part) seams

theorem Seam.between_isIdle (s : Seam) :
    ∀ line ∈ s.between.map (· ++ ['\n']), line.getLast? = some '\n' ∧ isIdle line = true := by
  intro line hline
  obtain ⟨t, ht, rfl⟩ := List.mem_map.mp hline
  exact ⟨List.getLast?_concat, isIdle_append_feed (s.skipped t ht).2⟩

namespace Lexeme

theorem within_doubled (q : Char) (content : Text) :
    Within q (content.flatMap fun c => if c = q then [c, c] else [c]) := by
  induction content with
  | nil => exact .nil
  | cons c content ih =>
      rw [List.flatMap_cons]
      by_cases hc : c = q
      · rw [if_pos hc, hc]
        exact .doubled ih
      · rw [if_neg hc]
        exact .plain hc ih

theorem Within.cut_of_prefix {q : Char} {t u : Text} (h : Within q u) (ht : t <+: u ++ [q]) :
    ∃ o, Cut q t o := by
  induction h generalizing t with
  | nil =>
      cases t with
      | nil => exact ⟨_, .within .nil⟩
      | cons c t =>
          obtain ⟨rfl, hrest⟩ := List.cons_prefix_cons.mp ht
          rw [List.prefix_nil.mp hrest]
          exact ⟨_, .behind .nil⟩
  | @plain c u hc _ ih =>
      cases t with
      | nil => exact ⟨_, .within .nil⟩
      | cons d t =>
          obtain ⟨rfl, hrest⟩ := List.cons_prefix_cons.mp ht
          obtain ⟨o, hcut⟩ := ih hrest
          cases hcut with
          | within hw => exact ⟨_, .within (.plain hc hw)⟩
          | behind hw => exact ⟨_, .behind (.plain hc hw)⟩
  | @doubled u _ ih =>
      cases t with
      | nil => exact ⟨_, .within .nil⟩
      | cons d t =>
          obtain ⟨rfl, hrest⟩ := List.cons_prefix_cons.mp ht
          cases t with
          | nil => exact ⟨_, .behind .nil⟩
          | cons e t =>
              obtain ⟨rfl, hrest⟩ := List.cons_prefix_cons.mp hrest
              obtain ⟨o, hcut⟩ := ih hrest
              cases hcut with
              | within hw => exact ⟨_, .within (.doubled hw)⟩
              | behind hw => exact ⟨_, .behind (.doubled hw)⟩

theorem Within.eq_none_of_cut {q : Char} {t : Text} (ht : Within q t) {o : Option Char}
    (h : Cut q (t ++ [q]) o) : o = none := by
  have hlast := ht.cut_of_append (List.cons_ne_nil q []) h
  generalize heq : [q] = u at hlast
  cases hlast with
  | behind _ => rfl
  | within hw =>
      cases hw with
      | nil => cases heq
      | plain hc _ =>
          obtain ⟨rfl, _⟩ := List.cons.inj heq
          exact absurd rfl hc
      | doubled _ => cases heq

end Lexeme

namespace Reader

theorem read_of_scan (env : Environment) {r : Reader} (hactive : r.isSuppressed = false) {t : Text}
    (hline : Line.isDirective (t ++ ['\n']) = false) (hfeed : '\n' ∉ t)
    (hreturn : t.getLast? ≠ some '\r') {lexemes : List Lexeme} {o : Option Char}
    (hscan : scan (fun _ => none) r.scanner.openDelimiter t = ⟨lexemes, o, []⟩) :
    r.read env (.ok (t ++ ['\n'])) =
      ⟨.ok (.ofLexemes (lexemes ++ [⟨.lineEnd, ['\n']⟩])), r.opened o (r.lineNumber + 1), []⟩ :=
  read_of_scanLine env hactive hline (scanLine_append_feed hfeed hreturn hscan)

end Reader

namespace Draft

/-- The bare tokens of an assignment whose right side is a string. -/
def Holds (d : Draft) (front : List Token) (value : Text) : Prop :=
  d.bare = front ++ [.ofLexeme ⟨.string, value⟩]

theorem Holds.resume_part {d : Draft} {front : List Token} {value part : Text}
    (hd : d.Holds front value) (hmark : d.liminals.head? = some Continuation.mark) {e : Lexeme}
    {o : Option Char}
    (hscan : scanLine none (value ++ part ++ ['\n']) = .ok ⟨[⟨.string, value ++ part⟩, e], o⟩)
    (rest : List Lexeme) :
    ∃ d' joined, d.resume (marker :: ⟨.string, part⟩ :: rest) = .ok (d', rest, joined) ∧
      d'.Holds front (value ++ part) ∧ d'.liminals = [] := by
  exact exists_resume_joined hd hmark rfl rfl hscan rest

end Draft

/-- Behind a line the string goes on, or the statement is complete. -/
def Phase.Behind (front : List Token) (value u : Text) : Phase → Prop
  | .building d => u ≠ [] ∧ d.Holds front value ∧ d.liminals.head? = some Continuation.mark
  | .complete s ahead => u = [] ∧ ahead = [] ∧ s.bare = front ++ [.ofLexeme ⟨.string, value⟩]

/-- The lexemes behind the last part of a string on its line. -/
def Line.lineTrail (u : Text) : List Lexeme :=
  trail u ++ [⟨.lineEnd, ['\n']⟩]

theorem Lexer.takeContent_trail {r : Reader} (hr : r.macros = .empty) {d d₁ d₂ : Draft}
    {content rest : List Lexeme} {joined : List Event}
    (hresume : d.resume content = .ok (d₁, rest, joined)) {u : Text} {o : Option Char}
    (hu : Trails u o)
    (htake : (d₁.take .empty rest).1 = (d₂.take .empty (lineTrail u)).1)
    {front : List Token} {value : Text} (hd : d₂.Holds front value) (hliminals : d₂.liminals = []) :
    ∃ phase events, takeContent r d content = ⟨[], .ok phase, events⟩ ∧
      phase.Behind front value u := by
  rw [takeContent_eq, hresume, hr]
  dsimp only
  cases htaken : d₁.take .empty rest with
  | mk progress findings =>
      rw [htaken] at htake
      dsimp only at htake
      cases hu with
      | @mark blanks hblanks o =>
          subst htake
          refine ⟨_, _, rfl, by simp, hd, ?_⟩
          simp [Draft.addLiminals, hliminals, marker, Continuation.mark]
      | nothing =>
          have hne : (d₂.addLiminals [['\n']]).tokens ≠ [] := by
            rw [ne_eq, ← Draft.bare_eq_nil, Draft.bare_addLiminals, hd]
            simp
          obtain ⟨s, hs, hbare⟩ := Draft.exists_statement? hne
          have hclosed : (d₂.take .empty (lineTrail [])).1 = .closed s [] := by
            simp [lineTrail, trail, Draft.take, Lexeme.role, Kind.role, hs]
          rw [htake, hclosed]
          exact ⟨_, _, rfl, rfl, rfl, hbare.trans hd⟩

/-- A line that brings one more part of a string, whatever stands behind the part. -/
def Reader.Brings (env : Environment) (r : Reader) (p : Phase) (line : Text) (front : List Token)
    (value : Text) (o : Option Char) : Prop :=
  ∀ u, Trails u o →
    (r.read env (.ok (line ++ u ++ ['\n']))).reader =
      r.opened o (r.lineNumber + 1) ∧
    ∃ phase events, p.takeReading (r.read env (.ok (line ++ u ++ ['\n']))) =
      ⟨[], .ok phase, events⟩ ∧ phase.Behind front value u

theorem not_mem_of_all_isBlank {t : Text} (h : t.all isBlank = true) (c : Char)
    (hc : isBlank c = false) : c ∉ t := by
  intro hmem
  rw [List.all_eq_true.mp h c hmem] at hc
  cases hc

theorem Lexeme.Trails.feed_not_mem {u : Text} {o : Option Char} (h : Trails u o) : '\n' ∉ u := by
  cases h with
  | nothing => exact List.not_mem_nil
  | mark h o =>
      have hblanks := not_mem_of_all_isBlank h '\n' rfl
      simp [continuationMark, hblanks]

theorem feed_not_mem_indented {indent part : Text} (hindent : indent.all isBlank = true)
    (hpart : '\n' ∉ part) : '\n' ∉ indent ++ continuationMark :: part := by
  have hblanks := not_mem_of_all_isBlank hindent '\n' rfl
  simp [continuationMark, hblanks, hpart]

section Quote

variable {q : Char} (hq : q = '\'' ∨ q = '"')
include hq

theorem Lexeme.Trails.getLast?_ne {u : Text} {o : Option Char} (h : Trails u o) {line : Text}
    (hline : o = none → line.getLast? = some q) : (line ++ u).getLast? ≠ some '\r' := by
  cases h with
  | nothing =>
      rw [List.append_nil, hline rfl]
      rcases hq with rfl | rfl <;> decide
  | @mark blanks h o =>
      have hblanks := not_mem_of_all_isBlank h '\r' rfl
      rw [List.getLast?_append]
      intro hlast
      have hmem : '\r' ∈ continuationMark :: blanks := by
        apply List.mem_of_getLast?
        simpa [List.getLast?_cons] using hlast
      simp [continuationMark, hblanks] at hmem

theorem feed_ne_quote : '\n' ≠ q := by
  rcases hq with rfl | rfl <;> decide

theorem feed_not_mem_of_prefix {t content : Text} (hcontent : '\n' ∉ content)
    (ht : t <+: content ++ [q]) : '\n' ∉ q :: t := by
  intro hmem
  rcases List.mem_cons.mp hmem with heq | hmem
  · exact feed_ne_quote hq heq
  · rcases List.mem_append.mp (ht.subset hmem) with hmem | hmem
    · exact hcontent hmem
    · exact feed_ne_quote hq (List.mem_singleton.mp hmem)

theorem Line.endsPlain_of_getLast? {t : Text} (h : t.getLast? = some q) : EndsPlain t := by
  obtain ⟨w, rfl⟩ := List.getLast?_eq_some_iff.mp h
  constructor
  · rw [Text.dropEndWhile, List.reverse_append, List.reverse_singleton, List.singleton_append,
      List.dropWhile_cons_of_neg (by simp [isBlank_quote hq]), List.reverse_cons,
      List.reverse_reverse, List.getLast?_concat]
    exact fun heq => quote_ne_mark hq (Option.some.inj heq)
  · rw [h]
    rcases hq with rfl | rfl <;> decide

end Quote

/-- The tokens in front of the string in the assignments that are looked at. -/
def assigned : List Token :=
  [.ofLexeme ⟨.name, ['x']⟩, .ofLexeme ⟨.punctuation, ['=']⟩]

/-- The lexemes of an assignment of a string. -/
def assignment (value : Text) : List Lexeme :=
  [⟨.name, ['x']⟩, ⟨.whitespace, [' ']⟩, ⟨.punctuation, ['=']⟩, ⟨.whitespace, [' ']⟩,
    ⟨.string, value⟩]

/-- The draft that an assignment of a string makes. -/
def Draft.ofAssignment (value : Text) : Draft :=
  ⟨[.ofLexeme ⟨.string, value⟩, (Token.ofLexeme ⟨.punctuation, ['=']⟩).addTail [[' ']],
    (Token.ofLexeme ⟨.name, ['x']⟩).addTail [[' ']]], []⟩

theorem Draft.take_assignment (value u : Text) :
    ((ofLiminals []).take .empty (assignment value ++ lineTrail u)).1 =
      ((ofAssignment value).take .empty (lineTrail u)).1 :=
  rfl

theorem Lexeme.Cut.getLast?_of_closed {q : Char} {t : Text} {o : Option Char} (h : Cut q t o)
    (ho : o = none) : t.getLast? = some q := by
  cases h with
  | within _ => cases ho
  | behind _ => exact List.getLast?_concat

namespace Reader

variable {env : Environment} {r : Reader} (hactive : r.isSuppressed = false)
  (hmacros : r.macros = .empty) {q : Char} (hq : q = '\'' ∨ q = '"')
include hactive hmacros hq

theorem brings_of_resume {line u : Text} {o : Option Char} (hu : Trails u o)
    (hdirective : Line.isDirective (line ++ u ++ ['\n']) = false) (hfeed : '\n' ∉ line)
    (hlast : o = none → line.getLast? = some q) {lead : List Lexeme}
    (hlead : ∀ l ∈ lead, l.isLiminal = true) {l : Lexeme} (hl : l.isLiminal = false)
    {ls : List Lexeme} (hscan : scan (fun _ => none) r.scanner.openDelimiter (line ++ u) =
      ⟨lead ++ l :: ls ++ trail u, o, []⟩) {d d₁ d₂ : Draft} {rest : List Lexeme}
    {joined : List Event} (hresume : (d.addLiminals (lead.map Lexeme.text)).resume
      (l :: ls ++ lineTrail u) = .ok (d₁, rest, joined))
    (htake : (d₁.take .empty rest).1 = (d₂.take .empty (lineTrail u)).1)
    {front : List Token} {value : Text} (hd : d₂.Holds front value) (hliminals : d₂.liminals = []) :
    (r.read env (.ok (line ++ u ++ ['\n']))).reader =
      r.opened o (r.lineNumber + 1) ∧
    ∃ phase events, (Phase.building d).takeReading (r.read env (.ok (line ++ u ++ ['\n']))) =
      ⟨[], .ok phase, events⟩ ∧ phase.Behind front value u := by
  have hplain : '\n' ∉ line ++ u := by
    rw [List.mem_append]
    exact not_or.mpr ⟨hfeed, hu.feed_not_mem⟩
  rw [read_of_scan env hactive hdirective hplain (hu.getLast?_ne hq hlast) hscan]
  refine ⟨rfl, ?_⟩
  have hparts := LineParts.ofLexemes_append hlead hl (ls ++ lineTrail u)
  have hlexemes : lead ++ l :: ls ++ trail u ++ [⟨.lineEnd, ['\n']⟩] =
      lead ++ l :: (ls ++ lineTrail u) := by
    simp [lineTrail]
  have hunbound : (r.opened o (r.lineNumber + 1)).macros = .empty := hmacros
  rw [hlexemes, hparts, Phase.takeReading_building]
  exact Lexer.takeContent_trail hunbound hresume hu htake hd hliminals

theorem brings_first (hopen : r.scanner.openDelimiter = none) {t : Text} {o : Option Char}
    (ht : Cut q t o) (hfeed : '\n' ∉ "x = ".toList ++ q :: t) :
    r.Brings env (.building (.ofLiminals [])) ("x = ".toList ++ q :: t) assigned (q :: t) o := by
  intro u hu
  have hscan : Line.scan (fun _ => none) r.scanner.openDelimiter ("x = ".toList ++ q :: t ++ u) =
      ⟨assignment (q :: t) ++ trail u, o, []⟩ := by
    have hname : Piece.first? ('x' :: ([' '] ++ '=' :: ([' '] ++ q :: (t ++ u)))) =
        some ⟨⟨.name, ['x']⟩, [' '] ++ '=' :: ([' '] ++ q :: (t ++ u)), none⟩ := rfl
    have hsign : Piece.first? ('=' :: ([' '] ++ q :: (t ++ u))) =
        some ⟨⟨.punctuation, ['=']⟩, [' '] ++ q :: (t ++ u), none⟩ := rfl
    rw [hopen]
    change Line.scanFresh _ ('x' :: ([' '] ++ '=' :: ([' '] ++ q :: (t ++ u)))) = _
    rw [scanFresh_of_first? hname, scanFresh_indented rfl rfl, scanFresh_of_first? hsign,
      scanFresh_indented rfl (isBlank_quote hq), scanFresh_literal hq ht hu]
    cases o <;> rfl
  have hlast : o = none → ("x = ".toList ++ q :: t).getLast? = some q := by
    intro ho
    rw [List.getLast?_append, List.getLast?_cons, ht.getLast?_of_closed ho]
    rfl
  have hresume : ((Draft.ofLiminals []).addLiminals []).resume
      (assignment (q :: t) ++ lineTrail u) =
        .ok (.ofLiminals [], assignment (q :: t) ++ lineTrail u, []) := rfl
  have hholds : (Draft.ofAssignment (q :: t)).Holds assigned (q :: t) := rfl
  have hlead : ∀ l ∈ ([] : List Lexeme), l.isLiminal = true := List.forall_mem_nil _
  exact brings_of_resume hactive hmacros hq hu rfl hfeed hlast hlead rfl hscan hresume
    (Draft.take_assignment _ u) hholds rfl

theorem brings_part {front : List Token} {d : Draft} {t : Text}
    (hd : d.Holds front (q :: t)) (hmark : d.liminals.head? = some Continuation.mark)
    (ht : Cut q t r.scanner.openDelimiter) {indent part : Text}
    (hindent : indent.all isBlank = true) (hpart : part ≠ []) {o : Option Char}
    (hnext : Cut q (t ++ part) o) (hplain : EndsPlain (q :: (t ++ part)))
    (hfeed : '\n' ∉ q :: (t ++ part)) :
    r.Brings env (.building d) (indent ++ continuationMark :: part) front (q :: (t ++ part)) o := by
  intro u hu
  have hscan : scan (fun _ => none) r.scanner.openDelimiter
      (indent ++ continuationMark :: part ++ u) =
        ⟨blanks indent ++ marker :: [⟨.string, part⟩] ++ trail u, o, []⟩ := by
    have hpiece := scan_part hq ht hpart hnext hu hindent
    simpa using hpiece
  have hdirective :
      Line.isDirective (indent ++ continuationMark :: part ++ u ++ ['\n']) = false := by
    have hall : ∀ c ∈ indent, isBlank c = true := List.all_eq_true.mp hindent
    rw [Line.isDirective, List.append_assoc, List.append_assoc, List.dropWhile_append_of_pos hall]
    rfl
  have hlast : o = none → (indent ++ continuationMark :: part).getLast? = some q := by
    intro ho
    have hend := hnext.getLast?_of_closed ho
    obtain ⟨front, last, rfl⟩ := (List.eq_nil_or_concat part).resolve_left hpart
    simp only [List.concat_eq_append, ← List.append_assoc, ← List.cons_append,
      List.getLast?_concat] at hend ⊢
    exact hend
  have hclean : '\n' ∉ indent ++ continuationMark :: part :=
    feed_not_mem_indented hindent fun hmem =>
      hfeed (List.mem_cons_of_mem q (List.mem_append_right t hmem))
  have hwhole : scan (fun _ => none) none (q :: (t ++ part)) =
      ⟨[⟨.string, q :: (t ++ part)⟩], none, []⟩ := scanFresh_joined hq hnext hplain
  have hjoined := scanLine_append_feed hfeed hplain.2 hwhole
  have hmarked : (d.addLiminals ((blanks indent).map Lexeme.text)).liminals.head? =
      some Continuation.mark := by
    simp [Draft.addLiminals, List.head?_append, hmark]
  have hled : (d.addLiminals ((blanks indent).map Lexeme.text)).Holds front (q :: t) := hd
  obtain ⟨d', joined, hresume, hd', hliminals⟩ := hled.resume_part hmarked hjoined (lineTrail u)
  exact brings_of_resume hactive hmacros hq hu hdirective hclean hlast isLiminal_of_mem_blanks rfl
    hscan hresume rfl hd' hliminals

end Reader

theorem Draft.Holds.of_alike {d d' : Draft} {front : List Token} {value : Text}
    (hd : d.Holds front value) (hmark : d.liminals.head? = some Continuation.mark)
    (h : d'.Alike d) : d'.Holds front value ∧ d'.liminals.head? = some Continuation.mark := by
  have hd' : d'.Holds front value := h.bare.trans hd
  have hne : d'.bare ≠ [] := by
    rw [hd']
    simp
  have hfirst := (h.liminals hne).first
  rw [hmark, beq_self_eq_true, beq_iff_eq] at hfirst
  exact ⟨hd', hfirst⟩

theorem Source.ofText_continuedText {line : Text} (hline : '\n' ∉ line) (s : Seam)
    (seams : List Seam) : ofText (continuedText line (s :: seams)) =
      .ok (line ++ continuationMark :: s.blanks ++ ['\n']) ::
        ((s.between.map (· ++ ['\n'])).map .ok ++
          ofText (continuedText (s.indent ++ continuationMark :: s.part) seams)) := by
  have htrail : '\n' ∉ line ++ continuationMark :: s.blanks := by
    have hblanks := not_mem_of_all_isBlank s.all_blanks '\n' rfl
    simp [continuationMark, hline, hblanks]
  rw [continuedText, List.append_assoc, ofText_line_append htrail,
    ofText_lines_append fun l hl => (s.skipped l hl).1]

/-- Behind the line with the last part of a string the statement is complete. -/
theorem Reader.Brings.completes {env : Environment} {r : Reader} {p : Phase} {front : List Token}
    {line value : Text} (hbrings : r.Brings env p line front value none) (hline : '\n' ∉ line) :
    ∃ r' s events, assemble env (.ofText (continuedText line [])) r p =
        ⟨[], r', .ok (.complete s []), events⟩ ∧
      s.bare = front ++ [.ofLexeme ⟨.string, value⟩] := by
  obtain ⟨_, phase, events, htaken, hbehind⟩ := hbrings [] .nothing
  cases phase with
  | building d => exact absurd rfl hbehind.1
  | complete s ahead =>
      obtain ⟨_, rfl, hs⟩ := hbehind
      have hsource : Source.ofText (line ++ ['\n']) = [.ok (line ++ [] ++ ['\n'])] := by
        have hcut := Source.ofText_line_append hline []
        rw [List.append_nil] at hcut ⊢
        exact hcut
      refine ⟨(r.read env (.ok (line ++ [] ++ ['\n']))).reader, s, events ++ [], ?_, hs⟩
      rw [continuedText, hsource, assemble_cons htaken]
      rfl

section Quote

variable {q : Char} (hq : q = '\'' ∨ q = '"')
include hq

/-- The lines up to the next part of a string are passed, and then that part is brought. -/
theorem Reader.Brings.pass_seam {env : Environment} {r : Reader} {p : Phase} {front : List Token}
    {line t : Text} {o o' : Option Char} {s : Seam}
    (hbrings : r.Brings env p line front (q :: t) o) (hactive : r.isSuppressed = false)
    (hmacros : r.macros = .empty) (hline : '\n' ∉ line) (ht : Cut q t o)
    (hnext : Cut q (t ++ s.part) o') (hplain : EndsPlain (q :: (t ++ s.part)))
    (hfeed : '\n' ∉ q :: (t ++ s.part)) :
    ∃ n p' events,
      (r.opened o n).Brings env p' (s.indent ++ continuationMark :: s.part) front
        (q :: (t ++ s.part)) o' ∧
      ∀ seams, assemble env (.ofText (continuedText line (s :: seams))) r p =
        (assemble env (.ofText (continuedText (s.indent ++ continuationMark :: s.part) seams))
          (r.opened o n) p').prepend [] events := by
  obtain ⟨hreader, phase, events, htaken, hbehind⟩ :=
    hbrings (continuationMark :: s.blanks) (.mark s.all_blanks o)
  have hend := Phase.atLineEnd_takeReading List.getLast?_concat p (congrArg Taking.result htaken)
  have hbehindLine := assemble_cons htaken
  rw [hreader] at hbehindLine
  cases phase with
  | complete s ahead => exact absurd hbehind.1 (List.cons_ne_nil _ _)
  | building d =>
      obtain ⟨_, hd, hmark⟩ := hbehind
      obtain ⟨n, hpasses⟩ : ∃ n, Reader.Passes env (s.between.map (· ++ ['\n']))
          (r.opened o (r.lineNumber + 1)) (r.opened o n) :=
        Reader.passes_of_isIdle s.between_isIdle _
      obtain ⟨p', later, _, halike, hpassed⟩ := hpasses.exists_phase hend
      cases halike with
      | @building d' _ halike =>
          obtain ⟨hd', hmark'⟩ := hd.of_alike hmark halike
          refine ⟨n, .building d', events ++ later,
            Reader.brings_part (r := r.opened o n) hactive hmacros hq hd' hmark' ht
              s.all_indent s.part_ne_nil hnext hplain hfeed, fun seams => ?_⟩
          rw [Source.ofText_continuedText hline, hbehindLine, hpassed, Assembly.prepend_prepend]
          rfl

/-- The lines behind a part of a string bring the other parts, and the last one completes the
statement. -/
theorem assemble_continuedText (env : Environment) (front : List Token) {content : Text}
    (hcontent : Within q content) (hfeed : '\n' ∉ content) {seams : List Seam} {t line : Text}
    {o : Option Char} {r : Reader} {p : Phase} (hactive : r.isSuppressed = false)
    (hmacros : r.macros = .empty) (hline : '\n' ∉ line) (ht : Cut q t o)
    (hbrings : r.Brings env p line front (q :: t) o)
    (hwhole : t ++ seams.flatMap Seam.part = content ++ [q])
    (hplain : ∀ k < seams.length, 0 < k →
      EndsPlain (q :: t ++ (seams.take k).flatMap Seam.part)) :
    ∃ r' s events, assemble env (.ofText (continuedText line seams)) r p =
        ⟨[], r', .ok (.complete s []), events⟩ ∧
      s.bare = front ++ [.ofLexeme ⟨.string, q :: (content ++ [q])⟩] := by
  induction seams generalizing t line o r p with
  | nil =>
      rw [List.flatMap_nil, List.append_nil] at hwhole
      subst hwhole
      obtain rfl := hcontent.eq_none_of_cut ht
      exact hbrings.completes hline
  | cons s seams ih =>
      rw [List.flatMap_cons, ← List.append_assoc] at hwhole
      obtain ⟨o', hnext⟩ := hcontent.cut_of_prefix ⟨_, hwhole⟩
      have hclean := feed_not_mem_of_prefix hq hfeed ⟨_, hwhole⟩
      have hplain' : EndsPlain (q :: (t ++ s.part)) := by
        cases seams with
        | nil =>
            rw [List.flatMap_nil, List.append_nil] at hwhole
            apply endsPlain_of_getLast? hq
            rw [hwhole, List.getLast?_cons, List.getLast?_concat]
            rfl
        | cons s' seams =>
            have hjoined := hplain 1 (by simp) Nat.one_pos
            simpa using hjoined
      have hline' : '\n' ∉ s.indent ++ continuationMark :: s.part :=
        feed_not_mem_indented s.all_indent fun hmem =>
          hclean (List.mem_cons_of_mem q (List.mem_append_right t hmem))
      have hlater : ∀ k < seams.length, 0 < k →
          EndsPlain (q :: (t ++ s.part) ++ (seams.take k).flatMap Seam.part) := by
        intro k hk _
        have hbehind := hplain (k + 1) (Nat.succ_lt_succ hk) k.succ_pos
        simpa using hbehind
      obtain ⟨n, p', events, hbrings', hpassed⟩ :=
        hbrings.pass_seam hq hactive hmacros hline ht hnext hplain' hclean
      obtain ⟨r', s', later, hassemble, hs'⟩ :=
        ih (r := r.opened o n) hactive hmacros hline' hnext hbrings' hwhole hlater
      refine ⟨r', s', events ++ later, ?_, hs'⟩
      rw [hpassed, hassemble]
      rfl

end Quote

namespace Lexer

/-- An assignment of a string literal, divided over continued lines wherever the text in front of a
line break but for the first does not end like a continued line, is lexed as it is on one line. -/
theorem run_of_continuedText (env : Environment) (name : Option Path) {q : Char}
    (hq : q = '\'' ∨ q = '"') {content : Text} (hfeed : '\n' ∉ content) {first : Text}
    (hfirst : first ≠ []) {seams : List Seam}
    (hwhole : first ++ seams.flatMap Seam.part = literal q content)
    (hplain : ∀ k < seams.length, 0 < k → EndsPlain (first ++ (seams.take k).flatMap Seam.part)) :
    ∃ d, ((start (.ofText (continuedText ("x = ".toList ++ first) seams)) .empty name).run
        env).result = .ok d ∧
      d.statements.map Statement.bare = [[.ofLexeme ⟨.name, ['x']⟩, .ofLexeme ⟨.punctuation, ['=']⟩,
        .ofLexeme ⟨.string, literal q content⟩]] := by
  obtain ⟨c, t, rfl⟩ := List.exists_cons_of_ne_nil hfirst
  obtain ⟨rfl, hrest⟩ := List.cons.inj hwhole
  have hcontent := within_doubled c content
  have hdoubled : '\n' ∉ content.flatMap fun d => if d = c then [d, d] else [d] := by
    intro hmem
    obtain ⟨d, hd, hmem⟩ := List.mem_flatMap.mp hmem
    have heq : '\n' = d := by
      split at hmem <;> simpa using hmem
    exact hfeed (heq ▸ hd)
  obtain ⟨o, ht⟩ := hcontent.cut_of_prefix ⟨_, hrest⟩
  have hline : '\n' ∉ "x = ".toList ++ c :: t := by
    have hclean := feed_not_mem_of_prefix hq hdoubled ⟨_, hrest⟩
    intro hmem
    rcases List.mem_append.mp hmem with hmem | hmem
    · revert hmem
      decide
    · exact hclean hmem
  have hbrings : (Reader.start name .empty).Brings env (.building (.ofLiminals []))
      ("x = ".toList ++ c :: t) assigned (c :: t) o :=
    Reader.brings_first rfl rfl hq rfl ht hline
  obtain ⟨r, s, events, hassemble, hs⟩ :=
    assemble_continuedText hq env assigned hcontent hdoubled rfl rfl hline ht hbrings hrest hplain
  refine ⟨⟨[s], [], r.inclusions⟩, ?_, ?_⟩
  · simp only [run, drain_start, hassemble, Assembly.yielded]
    simp [Phase.last, Phase.trailing]
  · rw [List.map_singleton, hs]
    rfl

/-- The delimiter cut in half, blanks alone, and a mark that is content. -/
theorem run_of_continuedText_of_halved_delimiter :
    ∃ seams : List Seam,
      continuedText "x = 'a'".toList seams = "x = 'a'&  \n! it's\n\n\t&' &\n&  &\n&& b'\n".toList ∧
      ∃ d, ((start (.ofText (continuedText ("x = ".toList ++ "'a'".toList) seams)) .empty none).run
          ⟨.none, [], 0, none⟩).result = .ok d ∧
        d.statements.map Statement.bare = [[.ofLexeme ⟨.name, ['x']⟩,
          .ofLexeme ⟨.punctuation, ['=']⟩, .ofLexeme ⟨.string, literal '\'' "a'   & b".toList⟩]] := by
  let seams : List Seam := [
    ⟨"  ".toList, ["! it's".toList, []], "\t".toList, "' ".toList, rfl, rfl, by decide, by decide⟩,
    ⟨[], [], [], "  ".toList, rfl, rfl, by decide, by decide⟩,
    ⟨[], [], [], "& b'".toList, rfl, rfl, by decide, by decide⟩]
  refine ⟨seams, by decide, ?_⟩
  exact run_of_continuedText _ none (.inl rfl) (by decide) (by decide) (by decide) (by decide)

/-- A mark that is content is taken for a continuation where a part ends with it. -/
theorem run_of_joined_mark :
    ∃ seams : List Seam, "'a".toList ++ seams.flatMap Seam.part = literal '\'' "a&b".toList ∧
      continuedText "x = 'a".toList seams = "x = 'a&\n&&&\n&b'\n".toList ∧
      ((start (.ofText "x = 'a&\n&&&\n&b'\n".toList) .empty none).run
          ⟨.none, [], 0, none⟩).result.toOption.map Document.values =
        some [["x".toList, "=".toList, "'a".toList, "&".toList, "b'".toList]] := by
  refine ⟨[⟨[], [], [], "&".toList, rfl, rfl, by decide, by decide⟩,
    ⟨[], [], [], "b'".toList, rfl, rfl, by decide, by decide⟩], by decide, by decide, ?_⟩
  decide +kernel

end Lexer

end FreeForm
