import FreeForm.Proofs.Lexer.Alike
import FreeForm.Proofs.Lexer.RoundTrip
import FreeForm.Proofs.Scan.Quotation
import FreeForm.Proofs.Scan.Rows
import FreeForm.Proofs.Scan.Terminators

namespace FreeForm

/-!
# Sources whose lines are ended differently

A source can have a carriage return in front of any of its line feeds, for whatever is done with a
line leaves its terminator alone. It is not scanned, a directive is read without it, and to the
statement that a line breaks off all line ends are the same.
-/

namespace Reader

/-- The same error, or parts that differ in the line end at most, the same reader and the same
events. -/
structure ReadAlike (x y : Reading LineParts) : Prop where
  result : ResultsAgree LineParts.SameButEnd x.result y.result
  reader : x.reader = y.reader
  events : x.events = y.events

variable (env : Environment) (r : Reader) {line line' : Text} (h : Line.SameButEnd line line')
include h

theorem readText_sameButEnd : ReadAlike (r.readText env line) (r.readText env line') := by
  unfold readText
  rw [← h.isDirective]
  split
  · exact ⟨.ok ⟨h.verbatim, .nil⟩, rfl, rfl⟩
  · obtain ⟨hlexemes, hscanner⟩ := r.scanner.scan_sameButEnd h
    generalize r.scanner.scan line = scanned, r.scanner.scan line' = scanned' at *
    obtain ⟨result, scanner⟩ := scanned
    obtain ⟨result', scanner'⟩ := scanned'
    obtain rfl : scanner = scanner' := hscanner
    cases hlexemes with
    | error e => exact ⟨.error _, rfl, rfl⟩
    | @ok lexemes lexemes' hlm =>
        have hparts := LineParts.ofLexemes_sameButEnd hlm
        dsimp only
        rw [← directiveText?_of_sameButEnd hlm]
        cases directiveText? lexemes with
        | none => exact ⟨.ok hparts, rfl, rfl⟩
        | some text => exact ⟨.map (fun _ => hparts) _, rfl, rfl⟩

theorem read_sameButEnd : ReadAlike (r.read env (.ok line)) (r.read env (.ok line')) :=
  readText_sameButEnd env { r with lineNumber := r.lineNumber + 1 } h

end Reader

theorem Phase.takeReading_matches {x y : Reading LineParts} (hxy : Reader.ReadAlike x y)
    {p q : Phase} (h : p.Alike q) :
    (p.takeReading x).Matches (q.takeReading y) ∧
      (p.takeReading x).events = (q.takeReading y).events := by
  obtain ⟨result, reader, events⟩ := x
  obtain ⟨result', reader', events'⟩ := y
  obtain ⟨hresult, hreader, hevents⟩ := hxy
  obtain rfl : reader = reader' := hreader
  obtain rfl : events = events' := hevents
  cases hresult with
  | error e => exact ⟨⟨h.due, .error e⟩, rfl⟩
  | ok hparts =>
      obtain ⟨hmatches, htaken⟩ := takeParts_matches (r := reader) rfl h hparts
      exact ⟨hmatches.prepend rfl _ _, congrArg (events ++ ·) (htaken rfl)⟩

/-- The same statements, up to liminal text, the same error or alike phases, the same reader and the
same events. -/
structure Assembly.Matches (a b : Assembly) : Prop where
  statements : a.statements.map Statement.bare = b.statements.map Statement.bare
  result : ResultsAgree Phase.Alike (a.result.mapError Prod.fst) (b.result.mapError Prod.fst)
  reader : a.reader = b.reader
  events : a.events = b.events

/-- However the lines are ended, they amount to the same. -/
theorem assemble_sameButEnd (env : Environment) {lines lines' : List Text}
    (h : List.Forall₂ Line.SameButEnd lines lines') (r : Reader) {p q : Phase} (hpq : p.Alike q) :
    (assemble env (lines.map .ok) r p).Matches (assemble env (lines'.map .ok) r q) := by
  induction h generalizing r p q with
  | nil => exact ⟨rfl, .ok hpq, rfl, rfl⟩
  | @cons line line' lines lines' hline _ ih =>
      have hread := Reader.read_sameButEnd env r hline
      obtain ⟨⟨hstatements, hresult⟩, hevents⟩ := Phase.takeReading_matches hread hpq
      simp only [List.map_cons, assemble, Taking.followedBy, ← hread.reader]
      generalize (p.takeReading (r.read env (.ok line))) = taking at *
      generalize (q.takeReading (r.read env (.ok line'))) = taking' at *
      obtain ⟨ss, result, es⟩ := taking
      obtain ⟨ss', result', es'⟩ := taking'
      obtain rfl : es = es' := hevents
      cases hresult with
      | error e => exact ⟨hstatements, .error e, rfl, rfl⟩
      | ok hphase =>
          obtain ⟨hlater, hend, hreader, hlaterEvents⟩ := ih (r.read env (.ok line)).reader hphase
          refine ⟨?_, hend, hreader, congrArg (es ++ ·) hlaterEvents⟩
          have hstatements : ss.map Statement.bare = ss'.map Statement.bare := hstatements
          simp only [Assembly.prepend, List.map_append, hstatements, hlater]

/-- Documents with the same tokens and the same inclusions. -/
structure Document.SameTokens (d d' : Document) : Prop where
  statements : d.statements.map Statement.bare = d'.statements.map Statement.bare
  inclusions : d.inclusions = d'.inclusions

theorem Assembly.Matches.run {a b : Assembly} (h : a.Matches b) :
    ResultsAgree Document.SameTokens a.run.result b.run.result ∧ a.run.macros = b.run.macros ∧
      a.run.events = b.run.events := by
  obtain ⟨ss, r, result, es⟩ := a
  obtain ⟨ss', r', result', es'⟩ := b
  obtain ⟨hstatements, hresult, hreader, hevents⟩ := h
  obtain rfl : r = r' := hreader
  refine ⟨?_, rfl, hevents⟩
  unfold Assembly.run
  dsimp only at hresult ⊢
  generalize result.mapError Prod.fst = ended at hresult ⊢
  generalize result'.mapError Prod.fst = ended' at hresult ⊢
  cases hresult with
  | error e => exact .error e
  | ok hphase =>
      have hstatements : ss.map Statement.bare = ss'.map Statement.bare := hstatements
      exact .ok ⟨by simp only [List.map_append, hstatements, hphase.last], rfl⟩

namespace Text

/-- The text with a carriage return in front of every line feed. -/
def returned (t : Text) : Text :=
  t.flatMap fun c => if c = '\n' then ['\r', '\n'] else [c]

theorem returned_cons {c : Char} (hc : c ≠ '\n') (t : Text) :
    returned (c :: t) = c :: returned t := by
  rw [returned, List.flatMap_cons, if_neg hc]
  rfl

theorem returned_append (t u : Text) : returned (t ++ u) = returned t ++ returned u :=
  List.flatMap_append

theorem returned_of_not_mem {t : Text} (h : '\n' ∉ t) : returned t = t := by
  induction t with
  | nil => rfl
  | cons c t ih =>
      obtain ⟨hc, ht⟩ : '\n' ≠ c ∧ '\n' ∉ t := by simpa using h
      rw [returned_cons (Ne.symm hc), ih ht]

theorem lines_returned (t : Text) : (returned t).lines = t.lines.map returned := by
  unfold lines
  fun_induction splitAfter '\n' t with
  | case1 => rfl
  | case2 rest ih =>
      have hfeed : returned ('\n' :: rest) = '\r' :: '\n' :: returned rest := rfl
      rw [hfeed, splitAfter, splitAfter, if_pos rfl, ih]
      rfl
  | case3 a rest hne hnil ih =>
      rw [returned_cons hne, splitAfter, if_neg hne, ih, hnil, List.map_singleton,
        returned_cons hne]
      rfl
  | case4 a rest hne piece pieces hpieces ih =>
      rw [returned_cons hne, splitAfter, if_neg hne, ih, hpieces, List.map_cons, List.map_cons,
        returned_cons hne]

/-- Where there was no carriage return before, each line keeps its content. -/
theorem sameButEnd_returned {t line : Text} (ht : '\r' ∉ t) (hline : line ∈ t.lines) :
    Line.SameButEnd line (returned line) := by
  have hreturn : '\r' ∉ line := by
    intro hmem
    have hwhole : '\r' ∈ t.lines.flatten := List.mem_flatten_of_mem hline hmem
    rw [lines_flatten] at hwhole
    exact ht hwhole
  obtain ⟨front, hfeed, rfl | rfl⟩ := mem_splitAfter hline
  · rw [returned_of_not_mem hfeed]
    exact ⟨rfl, .inl rfl⟩
  · have hlast : front.getLast? ≠ some '\r' := fun hlast =>
      hreturn (List.mem_append_left _ (List.mem_of_getLast? hlast))
    have hsplit := Line.split_append_terminator hfeed hlast (.inr (.inl rfl))
    have hsplit' := Line.split_append_terminator hfeed hlast (.inr (.inr rfl))
    have hreturned : returned (front ++ ['\n']) = front ++ ['\r', '\n'] := by
      rw [returned_append, returned_of_not_mem hfeed]
      rfl
    rw [hreturned]
    constructor
    · unfold Line.body
      rw [hsplit, hsplit']
    · unfold Line.terminator
      rw [hsplit, hsplit']
      exact .inr ⟨rfl, rfl⟩

end Text

/-- A carriage return in front of every line feed is kept, and changes nothing but liminal text: the
tokens and the inclusions are the same or the error is, and so are the macros and all events. -/
theorem lexText_returned (files : Files) (c : Configuration) {t : Text} (ht : '\r' ∉ t) :
    ResultsAgree (fun d d' => d.SameTokens d' ∧ d'.source = t.returned) (lexText files c t).result
        (lexText files c t.returned).result ∧
      (lexText files c t).macros = (lexText files c t.returned).macros ∧
      (lexText files c t).events = (lexText files c t.returned).events := by
  have hsource : ∀ d', (lexText files c t.returned).result = .ok d' → d'.source = t.returned := by
    intro d' hd'
    obtain ⟨macros, hrun⟩ := run_of_lexText hd'
    obtain ⟨_, hspelled, _⟩ := Lexer.source_of_run _ hrun
    simpa using hspelled
  have hruns : ResultsAgree Document.SameTokens (lexText files c t).result
        (lexText files c t.returned).result ∧
      (lexText files c t).macros = (lexText files c t.returned).macros ∧
      (lexText files c t).events = (lexText files c t.returned).events := by
    unfold lexText lexSource Lexer.ofSource
    cases c.macroTable with
    | error e => exact ⟨.error e, rfl, rfl⟩
    | ok macros =>
        have hlines : List.Forall₂ Line.SameButEnd t.lines t.returned.lines := by
          rw [Text.lines_returned, List.forall₂_map_right_iff]
          exact List.forall₂_same.mpr fun _ => Text.sameButEnd_returned ht
        dsimp only [Except.map]
        rw [Lexer.run_start, Lexer.run_start]
        exact (assemble_sameButEnd _ hlines _ (.refl _)).run
  exact ⟨hruns.1.and_right hsource, hruns.2⟩

/-- A string and a name are divided by line ends, behind a line that is skipped. -/
theorem lexText_returned_of_divided :
    '\r' ∉ "#ifdef B\n^\n#endif\nx = 'a&\n&b'\nal&\npha".toList ∧
    ∃ d d', (lexText .none .standard
        "#ifdef B\n^\n#endif\nx = 'a&\n&b'\nal&\npha".toList).result = .ok d ∧
      (lexText .none .standard (Text.returned
        "#ifdef B\n^\n#endif\nx = 'a&\n&b'\nal&\npha".toList)).result = .ok d' ∧
      d.values = [["x".toList, "=".toList, "'ab'".toList], ["alpha".toList]] ∧ d.SameTokens d' ∧
      d'.source = "#ifdef B\r\n^\r\n#endif\r\nx = 'a&\r\n&b'\r\nal&\r\npha".toList := by
  have hreturn : '\r' ∉ "#ifdef B\n^\n#endif\nx = 'a&\n&b'\nal&\npha".toList := by decide
  have hreturned : Text.returned "#ifdef B\n^\n#endif\nx = 'a&\n&b'\nal&\npha".toList =
      "#ifdef B\r\n^\r\n#endif\r\nx = 'a&\r\n&b'\r\nal&\r\npha".toList := by
    decide +kernel
  have hvalues : (lexText .none .standard
      "#ifdef B\n^\n#endif\nx = 'a&\n&b'\nal&\npha".toList).result.toOption.map
        Document.values =
      some [["x".toList, "=".toList, "'ab'".toList], ["alpha".toList]] := by
    decide +kernel
  obtain ⟨hagree, _, _⟩ := lexText_returned .none .standard hreturn
  obtain ⟨d, hresult, hd⟩ := exists_of_map_toOption hvalues
  obtain ⟨d', hd', htokens, hsource⟩ := hagree.exists_ok hresult
  exact ⟨hreturn, d, d', hresult, hd', hd, htokens, hsource.trans hreturned⟩

end FreeForm
