import FreeForm.Proofs.Lexer.CutOff
import FreeForm.Proofs.Lexer.LineEnds

namespace FreeForm

/-!
# Semantic text is kept

Semantic lexemes become tokens: behind what stands in a draft already, as the rest of the token that
a line break divides, or behind a separator. None is left out as long as nothing semantic stands
behind a continuation mark, where the rest of a line is liminal text. So the token values of a text
hold exactly the text of its semantic lexemes, in order.
-/

open Lexeme

namespace Lexeme

/-- The text of the semantic lexemes among some. -/
def semanticText (ls : List Lexeme) : Text :=
  concat (ls.filter (·.isSemantic))

@[simp] theorem semanticText_append (ls ms : List Lexeme) :
    semanticText (ls ++ ms) = semanticText ls ++ semanticText ms := by
  simp [semanticText]

theorem semanticText_cons_of_not {l : Lexeme} (h : l.isSemantic = false) (ls : List Lexeme) :
    semanticText (l :: ls) = semanticText ls := by
  rw [semanticText, List.filter_cons_of_neg (by simp [h])]
  rfl

theorem semanticText_subset (ls : List Lexeme) : semanticText ls ⊆ concat ls := by
  intro c hc
  obtain ⟨l, hl, hcl⟩ := List.mem_flatMap.mp hc
  exact List.mem_flatMap.mpr ⟨l, (List.mem_filter.mp hl).1, hcl⟩

theorem semanticText_dropWhile (ls : List Lexeme) :
    semanticText (ls.dropWhile (·.isLiminal)) = semanticText ls := by
  induction ls with
  | nil => rfl
  | cons l ls ih =>
      by_cases hl : l.isLiminal = true
      · rw [List.dropWhile_cons_of_pos hl, ih,
          semanticText_cons_of_not (by simp [isSemantic_eq, hl])]
      · rw [List.dropWhile_cons_of_neg hl]

/-- Every continuation mark of a line has nothing but white space in front of it, or nothing but
white space and a comment behind it. -/
def MarksAtEnds (ls : List Lexeme) : Prop :=
  ∀ i (h : i < ls.length), ls[i].isContinuation = true →
    (ls.take i).all (·.isWhitespace) = true ∨
      (ls.drop (i + 1)).all (fun l => l.isWhitespace || l.role == .comment) = true

instance (ls : List Lexeme) : Decidable (MarksAtEnds ls) :=
  inferInstanceAs (Decidable (∀ i (h : i < ls.length), ls[i].isContinuation = true →
    (ls.take i).all (·.isWhitespace) = true ∨
      (ls.drop (i + 1)).all (fun l => l.isWhitespace || l.role == .comment) = true))

/-- No semantic text stands behind a continuation mark. -/
def NothingBehindMarks (ls : List Lexeme) : Prop :=
  ∀ front l back, ls = front ++ l :: back → l.isContinuation = true → semanticText back = []

theorem NothingBehindMarks.of_suffix {ls ms : List Lexeme} (h : NothingBehindMarks ls)
    (hms : ms <:+ ls) : NothingBehindMarks ms := by
  obtain ⟨lead, rfl⟩ := hms
  intro front l back hback hl
  exact h (lead ++ front) l back (by rw [hback, List.append_assoc]) hl

theorem NothingBehindMarks.splitMark {ls : List Lexeme} (h : NothingBehindMarks ls) :
    NothingBehindMarks (Draft.splitMark ls).2 := by
  cases ls with
  | nil => exact h
  | cons l ls =>
      by_cases hl : l.isContinuation = true
      · rw [Draft.splitMark, if_pos hl]
        exact h.of_suffix (List.suffix_cons l ls)
      · rw [Draft.splitMark, if_neg hl]
        exact h

theorem MarksAtEnds.behind {front back : List Lexeme} {l m : Lexeme}
    (h : MarksAtEnds (front ++ l :: back)) (hl : l.isContinuation = true) (hm : m ∈ front)
    (hblank : m.isWhitespace = false) : semanticText back = [] := by
  have hends := h front.length (by simp) (by simpa using hl)
  have hdrop : (front ++ l :: back).drop (front.length + 1) = back := by
    rw [List.append_cons, List.drop_left' (by simp)]
  rw [List.take_left, hdrop] at hends
  rcases hends with hfront | hback
  · rw [List.all_eq_true.mp hfront m hm] at hblank
    cases hblank
  · have hnone : back.filter (·.isSemantic) = [] := by
      refine List.filter_eq_nil_iff.mpr fun k hk => ?_
      have hrole := List.all_eq_true.mp hback k (by simpa using hk)
      cases hkrole : k.role <;> simp_all [isWhitespace, isSemantic]
    rw [semanticText, hnone]
    rfl

/-- The content of a line whose marks stand at its ends has nothing semantic behind a mark but for
the one at its front. -/
theorem MarksAtEnds.nothingBehindMarks {ls : List Lexeme} (h : MarksAtEnds ls) :
    NothingBehindMarks (Draft.splitMark (ls.dropWhile (·.isLiminal))).2 := by
  have hcut := List.takeWhile_append_dropWhile (p := (·.isLiminal)) (l := ls)
  generalize ls.takeWhile (·.isLiminal) = lead at hcut
  cases hcontent : ls.dropWhile (·.isLiminal) with
  | nil =>
      intro front l back hnil
      simp [Draft.splitMark] at hnil
  | cons m ms =>
      have hm : m.isLiminal = false := by
        have hhead := List.head?_dropWhile_not Lexeme.isLiminal ls
        rw [hcontent] at hhead
        simpa using hhead
      have hblank : m.isWhitespace = false := by
        cases hrole : m.role <;> simp_all [isLiminal, isWhitespace]
      intro front l back hbehind hl
      obtain ⟨front', hms⟩ : ∃ front', m :: ms = m :: front' ++ l :: back := by
        by_cases hmark : m.isContinuation = true
        · rw [Draft.splitMark, if_pos hmark] at hbehind
          exact ⟨front, congrArg (m :: ·) hbehind⟩
        · rw [Draft.splitMark, if_neg hmark] at hbehind
          cases front with
          | nil =>
              obtain ⟨rfl, _⟩ := List.cons.inj hbehind
              exact absurd hl hmark
          | cons k front =>
              obtain ⟨rfl, _⟩ := List.cons.inj hbehind
              exact ⟨front, hbehind⟩
      rw [hcontent, hms, ← List.append_assoc] at hcut
      rw [← hcut] at h
      exact h.behind hl (by simp) hblank

end Lexeme

/-- Two parts that scan as one lexeme are its text. -/
theorem text_of_scanLine {x : Text} (hx : '\r' ∉ x) {m e : Lexeme} {o : Option Char}
    (h : scanLine none (x ++ ['\n']) = .ok ⟨[m, e], o⟩) : m.text = x := by
  rw [Line.text_of_scanLine_feed h, if_neg]
  exact fun hlast => hx (List.mem_of_getLast? hlast)

namespace Draft

/-- The lexemes that a line leaves for the next statement. -/
def Progress.left : Progress → List Lexeme
  | .open _ => []
  | .closed _ rest => rest

/-- Without macros the semantic lexemes of a line become tokens, up to the end of the statement. -/
theorem values_take {ls : List Lexeme} (h : NothingBehindMarks ls) (d : Draft) :
    ((take .empty ls d).1.bare.map Token.value).flatten ++ semanticText (take .empty ls d).1.left =
      d.values.flatten ++ semanticText ls := by
  obtain ⟨front, back, rfl, hback, hbare, _⟩ := take_cases .empty ls d
  have hleft : semanticText (take .empty (front ++ back) d).1.left = semanticText back := by
    cases hprogress : (take .empty (front ++ back) d).1 with
    | closed s rest =>
        rw [hprogress] at hback
        obtain rfl : back = rest := hback
        rfl
    | «open» d' =>
        rw [hprogress] at hback
        cases back with
        | nil => rfl
        | cons l back =>
            have hl : l.isContinuation = true := hback l rfl
            have hnothing := h front l back rfl hl
            rw [semanticText_cons_of_not (by simp [isSemantic_eq, hl]), hnothing]
            rfl
  have hpushed : ((front.filter (·.isSemantic)).flatMap (·.tokens .empty)).map Token.value =
      (front.filter (·.isSemantic)).map Lexeme.text := by
    rw [List.map_flatMap]
    exact List.map_eq_flatMap.symm
  rw [hleft, hbare, List.map_append, hpushed, semanticText_append, List.flatten_append,
    List.append_assoc]
  rfl

/-- What the front of a line completes is the newest token with the lexeme behind it. -/
theorem values_resume {d d' : Draft} {content rest : List Lexeme} {events : List Event}
    (h : d.resume content = .ok (d', rest, events)) (hd : '\r' ∉ d.values.flatten)
    (hcontent : '\r' ∉ concat content) :
    d'.values.flatten ++ semanticText rest = d.values.flatten ++ semanticText content := by
  have hsplit : semanticText (splitMark content).2 = semanticText content := by
    cases content with
    | nil => rfl
    | cons l ls =>
        by_cases hl : l.isContinuation = true
        · rw [splitMark, if_pos hl, semanticText_cons_of_not (by simp [isSemantic_eq, hl])]
        · rw [splitMark, if_neg hl]
  rw [← hsplit]
  rcases resume_cases h with
    ⟨previous, older, fragment, merged, htokens, hrest, hmerged, rfl, _⟩ | ⟨rfl, rfl, _⟩
  · obtain ⟨_, hfragment, l, e, o, hscan, rfl⟩ := Continuation.rejoin_eq_some hmerged
    have hvalues := values_of_tokens htokens
    have hjoined : '\r' ∉ previous.value ++ fragment.text := by
      rw [← splitMark_append content, hrest] at hcontent
      rw [hvalues] at hd
      simp_all
    have htext := text_of_scanLine hjoined hscan
    rw [hvalues, hrest, values_of_tokens rfl]
    have hrow : semanticText (fragment :: rest) = fragment.text ++ semanticText rest := by
      simp [semanticText, hfragment]
    have hvalue : (Token.ofLexeme l).value = previous.value ++ fragment.text := htext
    simp [hrow, hvalue]
  · rfl

theorem nothingBehindMarks_of_resume {d d' : Draft} {content rest : List Lexeme}
    {events : List Event} (h : d.resume content = .ok (d', rest, events))
    (hmarks : NothingBehindMarks (splitMark content).2) : NothingBehindMarks rest := by
  rcases resume_cases h with ⟨_, _, fragment, _, _, hrest, _⟩ | ⟨rfl, _⟩
  · rw [hrest] at hmarks
    exact hmarks.of_suffix (List.suffix_cons fragment rest)
  · exact hmarks

end Draft

/-- The token values that a phase holds. -/
def Phase.spelled (p : Phase) : Text :=
  (p.last.map Statement.values).flatten.flatten

theorem Phase.spelled_building (d : Draft) : (building d).spelled = d.values.flatten := by
  rw [spelled, last, Draft.values_statement?]
  split
  · rename_i hd
    simp [Draft.values, Draft.bare_eq_nil.mpr hd]
  · simp

theorem Phase.spelled_addLiminals (p : Phase) (ls : List Text) :
    (p.addLiminals ls).spelled = p.spelled := by
  cases p with
  | building d =>
      rw [addLiminals, spelled_building, spelled_building]
      rfl
  | complete s ahead => simp [spelled, addLiminals, last, Statement.values_eq]

/-- A line makes tokens of its semantic lexemes. -/
theorem Lexer.values_takeContent {r : Reader} (hr : r.macros = .empty) {d : Draft}
    {content : List Lexeme} (hmarks : NothingBehindMarks (Draft.splitMark content).2)
    (hd : '\r' ∉ d.values.flatten) (hcontent : '\r' ∉ concat content) {vs : List (List Text)}
    (h : (takeContent r d content).values = .ok vs) :
    vs.flatten.flatten = d.values.flatten ++ semanticText content := by
  -- along the statements of the line; only the first of them goes on with a draft
  fun_induction takeContent r d content generalizing vs with
  | case1 d content e hresume => cases h
  | case2 d content d' rest joined hresume d'' findings htake =>
      have htaken := Draft.values_take (Draft.nothingBehindMarks_of_resume hresume hmarks) d'
      rw [hr] at htake
      rw [htake, Draft.values_resume hresume hd hcontent] at htaken
      cases h
      rw [← htaken]
      exact (Phase.spelled_building d'').trans (List.append_nil _).symm
  | case3 d content d' rest joined hresume s findings htake =>
      have htaken := Draft.values_take (Draft.nothingBehindMarks_of_resume hresume hmarks) d'
      rw [hr] at htake
      rw [htake, Draft.values_resume hresume hd hcontent] at htaken
      cases h
      rw [← htaken]
      simp [Phase.last, s.values_eq, Draft.Progress.bare, Draft.Progress.left, semanticText]
  | case4 d content d' rest joined hresume s l ls findings htake ih =>
      have hbehind := Draft.nothingBehindMarks_of_resume hresume hmarks
      have htaken := Draft.values_take hbehind d'
      obtain ⟨front, hrest⟩ := Draft.suffix_of_take htake
      obtain ⟨front', hcontent'⟩ := Draft.suffix_of_resume hresume
      rw [hr] at htake
      rw [htake, Draft.values_resume hresume hd hcontent] at htaken
      rw [Taking.values_prepend] at h
      cases hvalues : (takeContent r (.ofLiminals []) (l :: ls)).values with
      | error e => simp [hvalues, Except.map] at h
      | ok ws =>
          have hplain : '\r' ∉ concat (l :: ls) := by
            intro hmem
            rw [← hcontent', ← hrest, concat_append, concat_append] at hcontent
            exact hcontent (List.mem_append_right _ (List.mem_append_right _ hmem))
          have hnone : (Draft.ofLiminals []).values = [] := rfl
          have hlater := ih (hbehind.of_suffix ⟨front, hrest⟩).splitMark List.not_mem_nil hplain
            hvalues
          simp only [hvalues, Except.map, Except.ok.injEq] at h
          rw [← htaken, ← h]
          simp only [List.map_singleton, List.singleton_append, List.flatten_cons,
            List.flatten_append, hlater, hnone, s.values_eq]
          rfl

namespace Phase

theorem values_takeParts {r : Reader} (hr : r.macros = .empty) {p : Phase} {parts : LineParts}
    (hmarks : NothingBehindMarks (Draft.splitMark parts.content).2) (hp : '\r' ∉ p.spelled)
    (hcontent : '\r' ∉ concat parts.content) {vs : List (List Text)}
    (h : (p.takeParts r parts).values = .ok vs) :
    vs.flatten.flatten = p.spelled ++ semanticText parts.content := by
  have hled := p.spelled_addLiminals parts.lead
  unfold takeParts at h
  rw [← hled] at hp ⊢
  generalize p.addLiminals parts.lead = q at h hp ⊢
  cases hls : parts.content with
  | nil =>
      rw [hls] at h
      cases h
      exact (List.append_nil _).symm
  | cons l ls =>
      rw [hls] at h hmarks hcontent
      cases q with
      | building d =>
          rw [spelled_building] at hp ⊢
          exact Lexer.values_takeContent hr hmarks hp hcontent h
      | complete s ahead =>
          rw [Taking.values_prepend] at h
          cases hvalues : (Lexer.takeContent r (.ofLiminals []) (l :: ls)).values with
          | error e => simp [hvalues, Except.map] at h
          | ok ws =>
              have hbehind := Lexer.values_takeContent hr hmarks List.not_mem_nil hcontent hvalues
              have hnone : (Draft.ofLiminals []).values = [] := rfl
              simp only [hvalues, Except.map, Except.ok.injEq] at h
              rw [← h, List.flatten_append, List.flatten_append, hbehind, hnone]
              rfl

/-- A line adds the text of its semantic lexemes to what was spelled in front of it. -/
theorem values_takeReading (env : Environment) {r : Reader} (hactive : r.isSuppressed = false)
    (hmacros : r.macros = .empty) {line : Text} (hline : Line.isDirective line = false)
    (hplain : '\r' ∉ line) {lexemes : List Lexeme} {o : Option Char}
    (hscan : scanLine r.scanner.openDelimiter line = .ok ⟨lexemes, o⟩)
    (hmarks : MarksAtEnds lexemes) {p : Phase} (hp : '\r' ∉ p.spelled) {vs : List (List Text)}
    (h : (p.takeReading (r.read env (.ok line))).values = .ok vs) :
    vs.flatten.flatten = p.spelled ++ semanticText lexemes := by
  have hcontent : '\r' ∉ concat (lexemes.dropWhile (·.isLiminal)) := by
    intro hmem
    obtain ⟨l, hl, hreturn⟩ := List.mem_flatMap.mp hmem
    rw [← concat_lexemes_scanLine hscan] at hplain
    exact hplain (List.mem_flatMap.mpr ⟨l, (List.dropWhile_sublist _).mem hl, hreturn⟩)
  rw [Reader.read_of_scanLine env hactive hline hscan] at h
  have hopened : (r.opened o (r.lineNumber + 1)).macros = .empty := hmacros
  have hbehind : NothingBehindMarks (Draft.splitMark (LineParts.ofLexemes lexemes).content).2 :=
    hmarks.nothingBehindMarks
  rw [← semanticText_dropWhile]
  exact values_takeParts hopened hbehind hp hcontent h

end Phase

theorem Assembly.values_of_ok {a : Assembly} {phase : Phase} (h : a.result = .ok phase) :
    a.values = .ok ((a.statements ++ phase.last).map Statement.values) := by
  rw [values, h]

/-- Values behind a line are those of the line and those that the phase behind it leads to. -/
theorem Taking.values_followedBy {t : Taking} {r : Reader} {lines : Source}
    {rest : Phase → Assembly} {vs : List (List Text)}
    (h : (t.followedBy r lines rest).values = .ok vs) :
    ∃ phase ws,
      t.values = .ok (t.statements.map Statement.values ++ phase.last.map Statement.values) ∧
      (rest phase).values = .ok ws ∧ vs = t.statements.map Statement.values ++ ws := by
  obtain ⟨ss, result, es⟩ := t
  cases result with
  | error e => cases h
  | ok phase =>
      rw [followedBy, Assembly.values_prepend] at h
      cases hrest : (rest phase).values with
      | error e => simp [hrest, Except.map] at h
      | ok ws =>
          simp only [hrest, Except.map, Except.ok.injEq] at h
          exact ⟨phase, ws, by simp [values, Except.map], hrest, h.symm⟩

/-- A text that lexes also scans, and its token values are its semantic text. -/
theorem values_assemble (env : Environment) {lines : List Text}
    (hlines : ∀ line ∈ lines, Line.isDirective line = false ∧ '\r' ∉ line) {r : Reader}
    (hactive : r.isSuppressed = false) (hmacros : r.macros = .empty) {p : Phase}
    {vs : List (List Text)} (h : (assemble env (lines.map .ok) r p).values = .ok vs) :
    ∃ rows, r.scanner.scanAll lines = .ok rows ∧
      ((∀ ls ∈ rows, MarksAtEnds ls) → '\r' ∉ p.spelled →
        vs.flatten.flatten = p.spelled ++ semanticText rows.flatten) := by
  induction lines generalizing r p vs with
  | nil =>
      cases h
      exact ⟨[], rfl, fun _ _ => (List.append_nil _).symm⟩
  | cons line lines ih =>
      obtain ⟨⟨hline, hplain⟩, hlines⟩ := List.forall_mem_cons.mp hlines
      rw [List.map_cons, assemble] at h
      obtain ⟨phase, ws, htaken, hrest, rfl⟩ := Taking.values_followedBy h
      cases hscan : scanLine r.scanner.openDelimiter line with
      | error e =>
          rw [Reader.read_of_scanLine_error env hactive hscan] at htaken
          cases htaken
      | ok scanned =>
          obtain ⟨lexemes, o⟩ := scanned
          have hread := Reader.read_of_scanLine env hactive hline hscan
          have hscanned : r.scanner.scan line = (.ok lexemes, ⟨o⟩) := by
            simp [Scanner.scan, hscan]
          rw [hread] at hrest
          obtain ⟨rows, hrows, hbehind⟩ :=
            ih (r := r.opened o (r.lineNumber + 1)) hlines hactive hmacros hrest
          have hall : r.scanner.scanAll (line :: lines) = .ok (lexemes :: rows) := by
            rw [Scanner.scanAll, hscanned]
            exact congrArg (Except.map (lexemes :: ·)) hrows
          refine ⟨lexemes :: rows, hall, fun hmarks hp => ?_⟩
          obtain ⟨hfirst, hmarks⟩ := List.forall_mem_cons.mp hmarks
          have hspelled := Phase.values_takeReading env hactive hmacros hline hplain hscan hfirst hp
            htaken
          rw [List.flatten_append, List.flatten_append] at hspelled
          have hphase : '\r' ∉ phase.spelled := by
            intro hmem
            have hmem' : '\r' ∈ p.spelled ++ semanticText lexemes :=
              hspelled ▸ List.mem_append_right _ hmem
            rcases List.mem_append.mp hmem' with hmem' | hmem'
            · exact hp hmem'
            · rw [← concat_lexemes_scanLine hscan] at hplain
              exact hplain (semanticText_subset lexemes hmem')
          rw [List.flatten_append, List.flatten_append, hbehind hmarks hphase, List.flatten_cons,
            semanticText_append, ← List.append_assoc, ← List.append_assoc, ← hspelled]
          rfl

namespace Lexer

/-- If the continuation marks of a text without directives, macros and carriage returns stand at the
ends of its lines, all semantic text that is scanned from it becomes the values of its tokens, in
order and once. -/
theorem values_eq_semanticText (env : Environment) (name : Option Path) {t : Text}
    (hplain : '\r' ∉ t) (hlines : ∀ line ∈ t.lines, Line.isDirective line = false)
    (hmarks : ∀ rows, scanText t = .ok rows → ∀ ls ∈ rows, MarksAtEnds ls) {d : Document}
    (h : ((start (.ofText t) .empty name).run env).result = .ok d) :
    ∃ rows, scanText t = .ok rows ∧
      d.values.flatten.flatten = concat (rows.flatten.filter (·.isSemantic)) := by
  obtain ⟨phase, hresult, rfl⟩ := exists_of_run h
  have hvalues := Assembly.values_of_ok hresult
  have hboth : ∀ line ∈ t.lines, Line.isDirective line = false ∧ '\r' ∉ line := by
    intro line hline
    refine ⟨hlines line hline, fun hmem => hplain ?_⟩
    rw [← t.lines_flatten]
    exact List.mem_flatten.mpr ⟨line, hline, hmem⟩
  obtain ⟨rows, hrows, hspelled⟩ := values_assemble env hboth rfl rfl hvalues
  exact ⟨rows, hrows, hspelled (hmarks rows hrows) List.not_mem_nil⟩

/-- A name and a string joined over lines, the latter past a comment, and a statement that goes on
without its tokens being joined. -/
theorem values_eq_semanticText_of_joined :
    ∃ d rows,
      ((start (.ofText "x = al&\n &pha; s = 'a&\n! c\n&b'\ny& ! d\n z\n".toList) .empty none).run
        ⟨.none, [], 0, none⟩).result = .ok d ∧
      d.values = [["x".toList, "=".toList, "alpha".toList],
        ["s".toList, "=".toList, "'ab'".toList], ["y".toList, "z".toList]] ∧
      scanText "x = al&\n &pha; s = 'a&\n! c\n&b'\ny& ! d\n z\n".toList = .ok rows ∧
      d.values.flatten.flatten = concat (rows.flatten.filter (·.isSemantic)) := by
  have hvalues : ((start (.ofText "x = al&\n &pha; s = 'a&\n! c\n&b'\ny& ! d\n z\n".toList) .empty
      none).run ⟨.none, [], 0, none⟩).result.toOption.map Document.values =
        some [["x".toList, "=".toList, "alpha".toList],
          ["s".toList, "=".toList, "'ab'".toList], ["y".toList, "z".toList]] := by
    decide +kernel
  have hends : (scanText "x = al&\n &pha; s = 'a&\n! c\n&b'\ny& ! d\n z\n".toList).toOption.all
      (fun rows => decide (∀ ls ∈ rows, MarksAtEnds ls)) = true := by
    decide +kernel
  obtain ⟨d, hrun, hd⟩ := exists_of_map_toOption hvalues
  have hmarks : ∀ rows, scanText "x = al&\n &pha; s = 'a&\n! c\n&b'\ny& ! d\n z\n".toList =
      .ok rows → ∀ ls ∈ rows, MarksAtEnds ls := by
    intro rows hrows
    rw [hrows] at hends
    exact of_decide_eq_true hends
  obtain ⟨rows, hrows, hspelled⟩ :=
    values_eq_semanticText _ none (by decide) (by decide) hmarks hrun
  exact ⟨d, rows, hrun, hd, hrows, hspelled⟩

end Lexer

end FreeForm
