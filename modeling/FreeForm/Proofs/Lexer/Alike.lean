import FreeForm.Proofs.Draft.Alike
import FreeForm.Proofs.Lexer.Assembly
import FreeForm.Proofs.Reader.Alike

namespace FreeForm

/-!
# Lexing from alike places

The same lines are assembled from two places in a source. As long as the readers scan alike and the
phases differ only in liminal text that no continued token depends on, each line completes the same
statements, up to that text, and leaves alike places again.
-/

/-- The same place in a source, up to liminal text that no continued token depends on. -/
inductive Phase.Alike : Phase → Phase → Prop
  | building {d d' : Draft} (h : d.Alike d') : Alike (.building d) (.building d')
  | complete {s s' : Statement} (h : s.bare = s'.bare) (ahead ahead' : List Text) :
      Alike (.complete s ahead) (.complete s' ahead')

/-- What is compared of an answer: the bare tokens of a statement, and an error but for its line. -/
def Yield.gist : Yield → Except LexError (Option (List Token))
  | .statement s => .ok (some s.bare)
  | .failure e => .error (e.atLine 0)
  | .finished => .ok none

/-- The same errors, up to their lines, or alike phases. -/
inductive TakenAlike : Except LexError Phase → Except LexError Phase → Prop
  | error {e f : LexError} (h : e.atLine 0 = f.atLine 0) : TakenAlike (.error e) (.error f)
  | ok {phase phase' : Phase} (h : phase.Alike phase') : TakenAlike (.ok phase) (.ok phase')

structure Taking.Alike (t t' : Taking) : Prop where
  statements : t.statements.map Statement.bare = t'.statements.map Statement.bare
  result : TakenAlike t.result t'.result

theorem Taking.Alike.prepend {t t' : Taking} (h : t.Alike t') {ss ss' : List Statement}
    (hs : ss.map Statement.bare = ss'.map Statement.bare) (es es' : List Event) :
    (t.prepend ss es).Alike (t'.prepend ss' es') := by
  refine ⟨?_, h.result⟩
  simp [Taking.prepend, hs, h.statements]

/-- The same statements, up to liminal text, and the same error or alike phases. -/
structure Taking.Matches (t t' : Taking) : Prop where
  statements : t.statements.map Statement.bare = t'.statements.map Statement.bare
  result : ResultsAgree Phase.Alike t.result t'.result

theorem Taking.Matches.alike {t t' : Taking} (h : t.Matches t') : t.Alike t' := by
  obtain ⟨hstatements, hresult⟩ := h
  refine ⟨hstatements, ?_⟩
  generalize t.result = result, t'.result = result' at hresult
  cases hresult with
  | error e => exact .error rfl
  | ok hphase => exact .ok hphase

theorem Taking.Matches.prepend {t t' : Taking} (h : t.Matches t') {ss ss' : List Statement}
    (hs : ss.map Statement.bare = ss'.map Statement.bare) (es es' : List Event) :
    (t.prepend ss es).Matches (t'.prepend ss' es') := by
  refine ⟨?_, h.result⟩
  simp [Taking.prepend, hs, h.statements]

/-- Rows of lexemes that differ in line ends are taken alike by alike drafts; where findings are
reported alike, so are the events. -/
theorem Lexer.takeContent_matches {r r' : Reader} (hr : r.macros = r'.macros) {d d' : Draft}
    (h : d.Alike d') {content content' : List Lexeme}
    (hcontent : List.Forall₂ Lexeme.SameButEnd content content') :
    (takeContent r d content).Matches (takeContent r' d' content') ∧
      (r.diagnosed = r'.diagnosed →
        (takeContent r d content).events = (takeContent r' d' content').events) := by
  -- along the statements of the line: each closes at the same lexeme on both sides, and the drafts
  -- behind it are empty
  fun_induction takeContent r d content generalizing d' content' with
  | case1 d content e hresume =>
      rw [takeContent_eq, h.resume_error hcontent hresume]
      exact ⟨⟨rfl, .error e⟩, fun _ => rfl⟩
  | case2 d content next rest joined hresume d'' findings htake =>
      obtain ⟨next', rest', hresume', hnext, hrest⟩ := h.resume_ok hcontent hresume
      rw [hr] at htake
      obtain ⟨e', htake', he⟩ := hnext.take_open hrest htake
      rw [takeContent_eq r' d' content', hresume']
      dsimp only
      rw [htake']
      exact ⟨⟨rfl, .ok (.building he)⟩, fun hdiagnosed => by rw [hdiagnosed]⟩
  | case3 d content next rest joined hresume s findings htake =>
      obtain ⟨next', rest', hresume', hnext, hrest⟩ := h.resume_ok hcontent hresume
      rw [hr] at htake
      obtain ⟨s', _, htake', hs, hbehind⟩ := hnext.take_closed hrest htake
      cases hbehind
      rw [takeContent_eq r' d' content', hresume']
      dsimp only
      rw [htake']
      exact ⟨⟨rfl, .ok (.complete hs [] [])⟩, fun hdiagnosed => by rw [hdiagnosed]⟩
  | case4 d content next rest joined hresume s l ls findings htake ih =>
      obtain ⟨next', rest', hresume', hnext, hrest⟩ := h.resume_ok hcontent hresume
      rw [hr] at htake
      obtain ⟨s', _, htake', hs, hbehind⟩ := hnext.take_closed hrest htake
      obtain ⟨hmatches, hevents⟩ := ih (Draft.alike_ofLiminals [] []) hbehind
      cases hbehind
      rw [takeContent_eq r' d' content', hresume']
      dsimp only
      rw [htake']
      refine ⟨hmatches.prepend (by simp [hs]) _ _, fun hdiagnosed => ?_⟩
      simp only [Taking.prepend, hevents hdiagnosed, hdiagnosed]

theorem Lexer.takeContent_alike {r r' : Reader} (hr : r.macros = r'.macros) {d d' : Draft}
    (h : d.Alike d') (content : List Lexeme) :
    (takeContent r d content).Alike (takeContent r' d' content) :=
  (takeContent_matches hr h (Lexeme.sameButEnd_refl content)).1.alike

namespace Phase

theorem Alike.refl (p : Phase) : p.Alike p := by
  cases p with
  | building d => exact .building ⟨rfl, fun _ => .refl d.liminals⟩
  | complete s ahead => exact .complete rfl ahead ahead

theorem Alike.trans {p q q' : Phase} (h : p.Alike q) (h' : q.Alike q') : p.Alike q' := by
  cases h with
  | building h =>
      cases h' with
      | building h' => exact .building (h.trans h')
  | complete h ahead ahead' =>
      cases h' with
      | complete h' _ ahead'' => exact .complete (h.trans h') ahead ahead''

theorem Alike.addLiminals {p q : Phase} (h : p.Alike q) {ls ms : List Text}
    (hlm : Continuation.SameBreak ls ms) : (p.addLiminals ls).Alike (q.addLiminals ms) := by
  cases h with
  | building h => exact .building (h.addLiminals_of_sameBreak hlm)
  | complete h ahead ahead' => exact .complete h _ _

theorem Alike.due {p q : Phase} (h : p.Alike q) :
    p.due.map Statement.bare = q.due.map Statement.bare := by
  cases h with
  | building h => rfl
  | complete h ahead ahead' => simp [Phase.due, h]

theorem Alike.last {p q : Phase} (h : p.Alike q) :
    p.last.map Statement.bare = q.last.map Statement.bare := by
  cases h with
  | building h =>
      rcases h.statement?_cases with ⟨hs, hs'⟩ | ⟨s, s', hs, hs', hbare⟩
      · simp [Phase.last, hs, hs']
      · simp [Phase.last, hs, hs', hbare]
  | complete h ahead ahead' => simp [Phase.last, h]

theorem takeParts_matches {r r' : Reader} (hr : r.macros = r'.macros) {p q : Phase}
    (h : p.Alike q) {parts parts' : LineParts} (hparts : parts.SameButEnd parts') :
    (p.takeParts r parts).Matches (q.takeParts r' parts') ∧
      (r.diagnosed = r'.diagnosed →
        (p.takeParts r parts).events = (q.takeParts r' parts').events) := by
  have hlead := h.addLiminals (.of_sameButEnd hparts.lead)
  have hcontent := hparts.content
  unfold takeParts
  generalize parts.content = content, parts'.content = content' at hcontent
  generalize p.addLiminals parts.lead = p', q.addLiminals parts'.lead = q' at hlead
  cases hcontent with
  | nil => exact ⟨⟨rfl, .ok hlead⟩, fun _ => rfl⟩
  | cons hl hrest =>
      cases hlead with
      | building h => exact Lexer.takeContent_matches hr h (.cons hl hrest)
      | complete h ahead ahead' =>
          obtain ⟨hmatches, hevents⟩ :=
            Lexer.takeContent_matches hr (Draft.alike_ofLiminals [] []) (.cons hl hrest)
          exact ⟨hmatches.prepend (by simp [h]) _ _, hevents⟩

theorem takeParts_alike {r r' : Reader} (hr : r.macros = r'.macros) {p q : Phase}
    (h : p.Alike q) (parts : LineParts) :
    (p.takeParts r parts).Alike (q.takeParts r' parts) :=
  (takeParts_matches hr h (.refl parts)).1.alike

theorem takeReading_alike {x y : Reading LineParts} (hxy : x.Alike y) {p q : Phase}
    (h : p.Alike q) : (p.takeReading x).Alike (q.takeReading y) := by
  have hmacros : x.reader.macros = y.reader.macros :=
    congrArg Preprocessor.macros (congrArg Survey.preprocessor hxy.survey)
  have hresult := hxy.result
  unfold takeReading
  generalize x.result = result at hresult ⊢
  generalize y.result = result' at hresult ⊢
  cases hresult with
  | error he => exact ⟨h.due, .error he⟩
  | ok parts => exact (takeParts_alike hmacros h parts).prepend rfl _ _

end Phase

/-- What is compared of all the answers that some lines lead to. -/
def Assembly.gists (a : Assembly) : List (Except LexError (Option (List Token))) :=
  a.yielded.answers.map Yield.gist

namespace Assembly

theorem gists_ok {a : Assembly} {phase : Phase} (h : a.result = .ok phase) :
    a.gists = (a.statements ++ phase.last).map (Yield.gist ∘ Yield.statement) := by
  simp [gists, yielded, h, Lexer.Yielded.answers]

theorem gists_error {a : Assembly} {e : LexError} {lines : Source}
    (h : a.result = .error (e, lines)) :
    a.gists = a.statements.map (Yield.gist ∘ Yield.statement) ++ [.error (e.atLine 0)] := by
  simp [gists, yielded, h, Lexer.Yielded.answers, Yield.gist]

theorem gists_prepend (ss : List Statement) (es : List Event) (a : Assembly) :
    (a.prepend ss es).gists = ss.map (Yield.gist ∘ Yield.statement) ++ a.gists := by
  obtain ⟨ts, r, result, fs⟩ := a
  cases result with
  | error e =>
      rw [gists_error rfl, gists_error rfl, ← List.append_assoc, ← List.map_append]
      rfl
  | ok phase =>
      rw [gists_ok rfl, gists_ok rfl, ← List.map_append, ← List.append_assoc]
      rfl

theorem exists_ok_iff {a : Assembly} :
    (∃ phase, a.result = .ok phase) ↔ ∀ g ∈ a.gists, ∃ x, g = .ok x := by
  cases hresult : a.result with
  | error failed =>
      rw [gists_error hresult]
      constructor
      · rintro ⟨phase, hphase⟩
        cases hphase
      · intro hall
        obtain ⟨x, hx⟩ := hall _ (List.mem_append_right _ (List.mem_singleton_self _))
        cases hx
  | ok phase =>
      rw [gists_ok hresult]
      refine iff_of_true ⟨phase, rfl⟩ fun g hg => ?_
      obtain ⟨s, _, rfl⟩ := List.mem_map.mp hg
      exact ⟨some s.bare, rfl⟩

/-- Statements in front do not matter to whether all lines can be taken. -/
theorem exists_ok_iff_of_gists {a b : Assembly} {ss : List Statement}
    (h : a.gists = ss.map (Yield.gist ∘ Yield.statement) ++ b.gists) :
    (∃ phase, a.result = .ok phase) ↔ ∃ phase, b.result = .ok phase := by
  rw [exists_ok_iff, exists_ok_iff, h]
  constructor
  · exact fun hall g hg => hall g (List.mem_append_right _ hg)
  · intro hall g hg
    rcases List.mem_append.mp hg with hg | hg
    · obtain ⟨s, _, rfl⟩ := List.mem_map.mp hg
      exact ⟨some s.bare, rfl⟩
    · exact hall g hg

end Assembly

theorem map_gist_of_map_bare {ss ss' : List Statement}
    (h : ss.map Statement.bare = ss'.map Statement.bare) :
    ss.map (Yield.gist ∘ Yield.statement) = ss'.map (Yield.gist ∘ Yield.statement) := by
  have hgists := congrArg (List.map fun ts => (Except.ok (some ts) : Except LexError _)) h
  rw [List.map_map, List.map_map] at hgists
  exact hgists

theorem map_bare_of_map_gist {ss ss' : List Statement}
    (h : ss.map (Yield.gist ∘ Yield.statement) = ss'.map (Yield.gist ∘ Yield.statement)) :
    ss.map Statement.bare = ss'.map Statement.bare := by
  have hinjective : Function.Injective
      fun ts => (Except.ok (some ts) : Except LexError (Option (List Token))) := by
    intro ts ts' heq
    exact Option.some.inj (Except.ok.inj heq)
  apply List.map_injective_iff.mpr hinjective
  rw [List.map_map, List.map_map]
  exact h

/-- The same error, up to its line and the lines behind it, or alike phases. -/
inductive EndedAlike :
    Except (LexError × Source) Phase → Except (LexError × Source) Phase → Prop
  | error {e f : LexError} (h : e.atLine 0 = f.atLine 0) (lines lines' : Source) :
      EndedAlike (.error (e, lines)) (.error (f, lines'))
  | ok {phase phase' : Phase} (h : phase.Alike phase') : EndedAlike (.ok phase) (.ok phase')

/-- The same statements up to liminal text, alike ends, and readers that are related. -/
structure Assembly.Alike (R : Reader → Reader → Prop) (a b : Assembly) : Prop where
  statements : a.statements.map Statement.bare = b.statements.map Statement.bare
  result : EndedAlike a.result b.result
  reader : R a.reader b.reader

/-- A relation between readers under which they read every line alike and stay related. -/
def Reader.ReadsAlike (env : Environment) (R : Reader → Reader → Prop) : Prop :=
  ∀ r r' line, R r r' →
    (r.read env line).Alike (r'.read env line) ∧ R (r.read env line).reader (r'.read env line).reader

namespace Assembly

theorem Alike.prepend {R : Reader → Reader → Prop} {a b : Assembly} (h : a.Alike R b)
    {ss ss' : List Statement} (hs : ss.map Statement.bare = ss'.map Statement.bare)
    (es es' : List Event) : (a.prepend ss es).Alike R (b.prepend ss' es') := by
  refine ⟨?_, h.result, h.reader⟩
  simp [Assembly.prepend, hs, h.statements]

theorem Alike.gists {R : Reader → Reader → Prop} {a b : Assembly} (h : a.Alike R b) :
    a.gists = b.gists := by
  obtain ⟨ss, r, result, es⟩ := a
  obtain ⟨ss', r', result', es'⟩ := b
  obtain ⟨hstatements, hresult, _⟩ := h
  have hyielded := map_gist_of_map_bare hstatements
  cases hresult with
  | error he => rw [gists_error rfl, gists_error rfl, hyielded, he]
  | ok hphase =>
      rw [gists_ok rfl, gists_ok rfl, List.map_append, List.map_append, hyielded,
        map_gist_of_map_bare hphase.last]

end Assembly

theorem Taking.Alike.followedBy {R : Reader → Reader → Prop} {t t' : Taking} (h : t.Alike t')
    {r r' : Reader} (hr : R r r') (lines : Source) {rest rest' : Phase → Assembly}
    (hrest : ∀ p q, p.Alike q → (rest p).Alike R (rest' q)) :
    (t.followedBy r lines rest).Alike R (t'.followedBy r' lines rest') := by
  obtain ⟨hstatements, hresult⟩ := h
  unfold Taking.followedBy
  generalize t.result = result at hresult ⊢
  generalize t'.result = result' at hresult ⊢
  cases hresult with
  | error he => exact ⟨hstatements, .error he _ _, hr⟩
  | ok hphase => exact (hrest _ _ hphase).prepend hstatements _ _

/-- Related readers and alike phases stay so along the lines of a source. -/
theorem assemble_alike {env : Environment} {R : Reader → Reader → Prop}
    (hR : Reader.ReadsAlike env R) (lines : Source) {r r' : Reader} (hr : R r r') {p q : Phase}
    (h : p.Alike q) : (assemble env lines r p).Alike R (assemble env lines r' q) := by
  induction lines generalizing r r' p q with
  | nil => exact ⟨rfl, .ok h, hr⟩
  | cons line lines ih =>
      obtain ⟨hread, hrelated⟩ := hR r r' line hr
      refine (Phase.takeReading_alike hread h).followedBy hrelated lines ?_
      intro p q hphase
      exact ih hrelated hphase

/-- If two texts go on alike from alike places, they go on alike behind the same lines. -/
theorem assemble_append_alike {env : Environment} {R : Reader → Reader → Prop} {lines : Source}
    {more more' : Source} {r r' : Reader} {p p' : Phase}
    (h : (assemble env lines r p).Alike R (assemble env lines r' p'))
    (hmore : ∀ q q', (assemble env lines r p).result = .ok q → q.Alike q' →
      (assemble env more (assemble env lines r p).reader q).Alike R
        (assemble env more' (assemble env lines r' p').reader q')) :
    (assemble env (lines ++ more) r p).Alike R (assemble env (lines ++ more') r' p') := by
  rw [assemble_append, assemble_append]
  obtain ⟨hstatements, hresult, hreader⟩ := h
  cases hleft : (assemble env lines r p).result with
  | error failed =>
      rw [hleft] at hresult
      cases hright : (assemble env lines r' p').result with
      | ok q' =>
          rw [hright] at hresult
          cases hresult
      | error failed' =>
          rw [hright] at hresult
          cases hresult with
          | error he => exact ⟨hstatements, .error he _ _, hreader⟩
  | ok q =>
      rw [hleft] at hresult
      cases hright : (assemble env lines r' p').result with
      | error failed' =>
          rw [hright] at hresult
          cases hresult
      | ok q' =>
          rw [hright] at hresult
          cases hresult with
          | ok hphase => exact (hmore q q' hleft hphase).prepend hstatements _ _

theorem Reader.readsAlike_survey (env : Environment) :
    Reader.ReadsAlike env fun r r' => r.survey = r'.survey := by
  intro r r' line h
  have hread := Reader.read_alike env h line
  exact ⟨hread, hread.survey⟩

/-- What some lines leave to the lines behind them does not depend on the statement that they were
read into, as far as they can be taken. -/
theorem survey_assemble {env : Environment} {lines : Source} {r r' : Reader}
    (hr : r.survey = r'.survey) {p p' q q' : Phase} (h : (assemble env lines r p).result = .ok q)
    (h' : (assemble env lines r' p').result = .ok q') :
    (assemble env lines r p).reader.survey = (assemble env lines r' p').reader.survey := by
  induction lines generalizing r r' p p' with
  | nil => exact hr
  | cons line lines ih =>
      have hsurvey := (Reader.read_alike env hr line).survey
      simp only [assemble, Taking.followedBy] at h h' ⊢
      cases htaken : (p.takeReading (r.read env line)).result with
      | error e =>
          rw [htaken] at h
          cases h
      | ok phase =>
          cases htaken' : (p'.takeReading (r'.read env line)).result with
          | error e =>
              rw [htaken'] at h'
              cases h'
          | ok phase' =>
              rw [htaken] at h
              rw [htaken'] at h'
              exact ih hsurvey h h'

/-- Readers that differ in the number of the line only. -/
def Reader.SameButLine (r r' : Reader) : Prop :=
  r'.atLine r.lineNumber = r

theorem Reader.SameButLine.refl (r : Reader) : r.SameButLine r := by
  unfold SameButLine
  rfl

theorem Reader.SameButLine.atLine {r r' : Reader} (h : r.SameButLine r') (n : Nat) :
    (r.atLine n).SameButLine r' := by
  have hnumbered : (r'.atLine r.lineNumber).atLine n = r.atLine n :=
    congrArg (Reader.atLine · n) h
  exact hnumbered

theorem Reader.readsAlike_sameButLine (env : Environment) :
    Reader.ReadsAlike env Reader.SameButLine := by
  intro r r' line h
  have hsurvey : r.survey = r'.survey := by
    rw [← h]
    rfl
  refine ⟨Reader.read_alike env hsurvey line, ?_⟩
  have hbehind := Reader.reader_read_atLine env r' r.lineNumber line
  rw [h] at hbehind
  rw [hbehind]
  rfl

/-- All answers of a run that gives a document are statements. -/
theorem Lexer.gists_of_run {env : Environment} {source : Source} {macros : MacroTable}
    {name : Option Path} {d : Document}
    (h : ((start source macros name).run env).result = .ok d) :
    (assemble env source (.start name macros) (.building (.ofLiminals []))).gists =
      d.statements.map (Yield.gist ∘ Yield.statement) := by
  obtain ⟨phase, hphase, rfl⟩ := exists_of_run h
  exact Assembly.gists_ok hphase

end FreeForm
