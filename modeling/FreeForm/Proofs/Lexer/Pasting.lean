import FreeForm.Lexing
import FreeForm.Proofs.Lexer.Composition
import FreeForm.Proofs.Reader.Including
import FreeForm.Proofs.Reader.Inclusions
import FreeForm.Proofs.Text.Encoding

namespace FreeForm

/-!
# Including a file and pasting it

A file that lexes by itself may be included or pasted: what stands around it is lexed alike, and the
macros are the same behind it. The line that includes it is read while the lexer looks ahead for the
end of the statement in front, and the lexer that reads the file knows nothing of that statement. It
need not, for a statement that is complete waits only for the liminal text behind it.
-/

theorem Source.includedName?_of_mem {t : Text} (h : (ofText t).includedNames = []) :
    ∀ line ∈ t.lines, Line.includedName? line = none := by
  rw [includedNames, readable_ofText] at h
  exact List.filterMap_eq_nil_iff.mp h

/-- Without a nested lexer no file is included. -/
theorem inclusions_assemble {env : Environment} (h : env.nested = none) (source : Source)
    (r : Reader) (phase : Phase) : (assemble env source r phase).reader.inclusions = r.inclusions := by
  apply reader_assemble_induction env (I := fun r' => r'.inclusions = r.inclusions) _ source rfl
  intro r' line hr'
  obtain ⟨added, hadded, hlexed⟩ := (Reader.grown_read env r' line).inclusions
  have hnone : added = [] := by
    apply List.eq_nil_iff_forall_not_mem.mpr
    intro i hi
    obtain ⟨_, _, _, _, hnested, _⟩ := hlexed i hi
    rw [h] at hnested
    cases hnested
  rw [hadded, hnone, List.append_nil]
  exact hr'

section Plain

variable {t : Text} (hplain : (Source.ofText t).includedNames = [])
include hplain

/-- A text that includes no file is assembled alike in every environment. -/
theorem assemble_ofText_congr (env env' : Environment) (r : Reader) (phase : Phase) :
    assemble env (.ofText t) r phase = assemble env' (.ofText t) r phase := by
  have hlines := Source.includedName?_of_mem hplain
  unfold Source.ofText
  generalize t.lines = lines at hlines
  induction lines generalizing r phase with
  | nil => rfl
  | cons line lines ih =>
      obtain ⟨hline, hlines⟩ := List.forall_mem_cons.mp hlines
      have hread : r.read env (.ok line) = r.read env' (.ok line) := by
        apply Reader.read_of_inclusion?_eq_none
        rw [Reader.inclusion?, hline, ite_self]
      have hrest := fun r phase => ih r phase hlines
      simp only [List.map_cons, assemble, hread, hrest]

theorem inclusions_assemble_ofText (env : Environment) (r : Reader) (phase : Phase) :
    (assemble env (.ofText t) r phase).reader.inclusions = r.inclusions := by
  rw [assemble_ofText_congr hplain env { env with nested := none }]
  exact inclusions_assemble rfl _ r phase

end Plain

theorem Environment.exists_nested_ofConfiguration (files : Files) {c : Configuration}
    (h : 0 < c.maxIncludeDepth) : ∃ env, (ofConfiguration files c).nested =
      some fun path source macros => (Lexer.start source macros (some path)).run env := by
  unfold ofConfiguration
  generalize c.maxIncludeDepth = levels at h
  cases levels with
  | zero => cases h
  | succ levels => exact ⟨_, rfl⟩

namespace Lexer

/-- Whether a source lexes into a document, leaves a macro table behind, and ends outside of every
statement, string and skipped region. -/
structure Completes (env : Environment) (source : Source) (macros : MacroTable)
    (name : Option Path) (d : Document) (left : MacroTable) : Prop where
  result : ((start source macros name).run env).result = .ok d
  leaves : ((start source macros name).run env).macros = left
  notContinued : endsContinued env source macros name = false
  closed : ((start source macros name).drain env).lexer.reader.scanner.openDelimiter = none
  active : ((start source macros name).drain env).lexer.reader.isSuppressed = false

variable {env : Environment} {source : Source} {macros left : MacroTable} {name : Option Path}
  {d : Document}

/-- The place behind such a source is like the start of a source, but for a statement that may still
be completed. -/
theorem Completes.exists_phase (h : Completes env source macros name d left) :
    ∃ phase,
      (assemble env source (.start name macros) (.building (.ofLiminals []))).result = .ok phase ∧
      phase.isContinued = false ∧
      d.statements = (assemble env source (.start name macros)
        (.building (.ofLiminals []))).statements ++ phase.last ∧
      (assemble env source (.start name macros) (.building (.ofLiminals []))).reader.survey =
        Survey.start left := by
  obtain ⟨phase, hresult, hd⟩ := exists_of_run h.result
  have hcontinued := h.notContinued
  have hclosed := h.closed
  have hactive := h.active
  have hmacros := h.leaves
  rw [endsContinued, hresult] at hcontinued
  rw [drain_start] at hclosed hactive
  rw [run_start] at hmacros
  simp only [Assembly.yielded, hresult] at hclosed hactive
  refine ⟨phase, hresult, hcontinued, by rw [hd], ?_⟩
  rw [Reader.survey_eq_start hclosed hactive, ← hmacros]
  rfl

/-- Behind such a source other lines lead to what they lead to at the start of a source. -/
theorem Completes.gists_append (h : Completes env source macros name d left) (more : Source) :
    (assemble env (source ++ more) (.start name macros) (.building (.ofLiminals []))).gists =
      d.statements.map (Yield.gist ∘ Yield.statement) ++
        (assemble env more (.start name left) (.building (.ofLiminals []))).gists := by
  obtain ⟨phase, hresult, hcontinued, hd, hsurvey⟩ := h.exists_phase
  rw [assemble_append, hresult]
  dsimp only
  rw [Assembly.gists_prepend, gists_of_not_continued env more name hsurvey hcontinued, hd,
    List.map_append, List.append_assoc]

theorem Completes.exists_run_append (h : Completes env source macros name d left) {more : Source}
    {x : Document} (hx : ((start (source ++ more) macros name).run env).result = .ok x) :
    ∃ y, ((start more left name).run env).result = .ok y ∧
      ((start (source ++ more) macros name).run env).macros =
        ((start more left name).run env).macros := by
  obtain ⟨phase, hresult, _, _, hsurvey⟩ := h.exists_phase
  obtain ⟨last, hlast, _⟩ := exists_of_run hx
  obtain ⟨last', hlast'⟩ := (Assembly.exists_ok_iff_of_gists (h.gists_append more)).mp ⟨last, hlast⟩
  obtain ⟨y, hy⟩ := (exists_run_iff env more left name).mpr ⟨last', hlast'⟩
  refine ⟨y, hy, ?_⟩
  rw [run_start, run_start]
  rw [assemble_append, hresult] at hlast ⊢
  exact congrArg (·.preprocessor.macros) (survey_assemble hsurvey hlast hlast')

/-- A source that includes no file lexes alike in every environment and under every name. -/
theorem Completes.exists_run {t : Text} (h : Completes env (.ofText t) macros name d left)
    (hplain : (Source.ofText t).includedNames = []) (env' : Environment) (name' : Option Path) :
    ∃ d', ((start (.ofText t) macros name').run env').result = .ok d' ∧
      ((start (.ofText t) macros name').run env').macros = left ∧
      d'.statements.map Statement.bare = d.statements.map Statement.bare := by
  obtain ⟨phase, hresult, _, hd, hsurvey⟩ := h.exists_phase
  have hstart : (Reader.start name macros).survey = (Reader.start name' macros).survey := rfl
  obtain ⟨hstatements, hended, hreader⟩ := assemble_alike (Reader.readsAlike_survey env)
    (.ofText t) hstart (.refl (.building (.ofLiminals [])))
  rw [hsurvey] at hreader
  rw [run_start, assemble_ofText_congr hplain env' env]
  rw [hresult] at hended
  generalize assemble env (.ofText t) (.start name' macros) (.building (.ofLiminals [])) = a
    at hstatements hended hreader ⊢
  obtain ⟨ss, r, result, events⟩ := a
  cases hended with
  | ok hphase =>
      refine ⟨_, rfl, ?_, ?_⟩
      · exact congrArg (·.preprocessor.macros) hreader.symm
      · rw [hd, List.map_append, List.map_append, hstatements, hphase.last]

section Including

variable {files : Files} {c : Configuration} (hdepth : 0 < c.maxIncludeDepth) {path : Path}
  (hne : path ≠ []) (hquote : '"' ∉ path) {f : Text}
  (hfile : files (Path.join c.includeRoot path) = .file (Text.toUtf8 f))
  (hplain : (Source.ofText f).includedNames = [])
  (hf : Completes (.ofConfiguration files c) (.ofText f) macros name d left)
include hdepth hne hquote hfile hplain hf

/-- The line that includes a file is liminal text, and the reader keeps the document of the file and
goes on with the macros that the file leaves. -/
theorem exists_assemble_including : ∃ inner : Document,
    inner.statements.map Statement.bare = d.statements.map Statement.bare ∧
      ∀ (r : Reader) (phase : Phase) (more : Source), r.survey = Survey.start macros →
        ∃ r' lead events,
          assemble (.ofConfiguration files c) (.ok (Line.including path) :: more) r phase =
            (assemble (.ofConfiguration files c) more r' (phase.addLiminals lead)).prepend []
              events ∧
          r'.survey = Survey.start left ∧
          r'.inclusions = r.inclusions ++ [(Path.join c.includeRoot path, inner)] := by
  obtain ⟨env, hnested⟩ := Environment.exists_nested_ofConfiguration files hdepth
  obtain ⟨inner, hinner, hleft, hbare⟩ := hf.exists_run hplain env
    (some (Path.join c.includeRoot path))
  refine ⟨inner, hbare, fun r phase more hr => ?_⟩
  obtain ⟨hpreprocessor, hscanner⟩ := Survey.mk.inj hr
  have hmacros : r.macros = macros := congrArg Preprocessor.macros hpreprocessor
  have hactive : r.isSuppressed = false := congrArg Preprocessor.suppressed hpreprocessor
  rw [← hmacros, ← Source.ofBytes_toUtf8 f] at hinner hleft
  have hroot : (Environment.ofConfiguration files c).root = c.includeRoot := rfl
  obtain ⟨lead, hresult, hreader⟩ := Reader.exists_read_including
    (Line.includedName?_including hne hquote) hactive hfile hnested hinner
  rw [hroot, hleft] at hreader
  have htaken : phase.takeReading (r.read (.ofConfiguration files c) (.ok (Line.including path))) =
      ⟨[], .ok (phase.addLiminals lead),
        (r.read (.ofConfiguration files c) (.ok (Line.including path))).events ++ []⟩ := by
    rw [Phase.takeReading, hresult]
    rfl
  refine ⟨_, lead, _, assemble_cons htaken more, ?_, ?_⟩
  · rw [hreader, Reader.survey, Reader.withMacros]
    dsimp only
    rw [hpreprocessor, hscanner]
    rfl
  · rw [hreader]

end Including

section Pasting

variable {files : Files} {c : Configuration} {p f : Text} {middle : MacroTable} {front : Document}
  (hp : Completes (.ofConfiguration files c) (.ofText p) macros name front middle)
  (hf : Completes (.ofConfiguration files c) (.ofText f) middle name d left)
include hp hf

theorem gists_pasted (more : Source) :
    (assemble (.ofConfiguration files c) (.ofText p ++ (.ofText f ++ more)) (.start name macros)
        (.building (.ofLiminals []))).gists =
      (front.statements ++ d.statements).map (Yield.gist ∘ Yield.statement) ++
        (assemble (.ofConfiguration files c) more (.start name left)
          (.building (.ofLiminals []))).gists := by
  rw [hp.gists_append, hf.gists_append, List.map_append, List.append_assoc]

variable (hdepth : 0 < c.maxIncludeDepth) {path : Path} (hne : path ≠ []) (hquote : '"' ∉ path)
  (hfile : files (Path.join c.includeRoot path) = .file (Text.toUtf8 f))
  (hplain : (Source.ofText f).includedNames = [])
include hdepth hne hquote hfile hplain

theorem gists_including (more : Source) :
    (assemble (.ofConfiguration files c) (.ofText p ++ .ok (Line.including path) :: more)
        (.start name macros) (.building (.ofLiminals []))).gists =
      front.statements.map (Yield.gist ∘ Yield.statement) ++
        (assemble (.ofConfiguration files c) more (.start name left)
          (.building (.ofLiminals []))).gists := by
  obtain ⟨inner, _, hincluding⟩ := exists_assemble_including hdepth hne hquote hfile hplain hf
  obtain ⟨r', lead, events, hassemble, hsurvey, _⟩ :=
    hincluding (.start name middle) (.building (.ofLiminals [])) more rfl
  rw [hp.gists_append, hassemble, Assembly.gists_prepend]
  rw [gists_of_not_continued _ more name hsurvey rfl]
  rfl

/-- The lexer behind the line that includes a file: it knows what it would know behind the file
itself, and has kept the document of the file. -/
theorem exists_inclusion {q : Text} (hfront : (Source.ofText p).includedNames = [])
    (hrest : (Source.ofText q).includedNames = []) : ∃ inner : Document,
    inner.statements.map Statement.bare = d.statements.map Statement.bare ∧
      ∀ e g, ((start (Source.ofText p ++ .ok (Line.including path) :: Source.ofText q) macros name).run
          (.ofConfiguration files c)).result = .ok e →
        ((start (.ofText q) left name).run (.ofConfiguration files c)).result = .ok g →
        e.inclusions = [(Path.join c.includeRoot path, inner)] ∧
        ((start (Source.ofText p ++ .ok (Line.including path) :: Source.ofText q) macros name).run
            (.ofConfiguration files c)).macros =
          ((start (.ofText q) left name).run (.ofConfiguration files c)).macros := by
  obtain ⟨inner, hinner, hincluding⟩ :=
    exists_assemble_including hdepth hne hquote hfile hplain hf
  refine ⟨inner, hinner, fun e g he hg => ?_⟩
  obtain ⟨phase, hresult, _, _, hsurvey⟩ := hp.exists_phase
  have hnone := inclusions_assemble_ofText hfront (.ofConfiguration files c)
    (.start name macros) (.building (.ofLiminals []))
  obtain ⟨last, hlast, rfl⟩ := exists_of_run he
  obtain ⟨last', hlast', _⟩ := exists_of_run hg
  rw [run_start, run_start]
  rw [assemble_append, hresult] at hlast ⊢
  dsimp only at hlast ⊢
  generalize (assemble (.ofConfiguration files c) (.ofText p) (.start name macros)
    (.building (.ofLiminals []))).reader = r at hsurvey hnone hlast ⊢
  obtain ⟨r', lead, events, hassemble, hsurvey', hinclusions⟩ :=
    hincluding r phase (.ofText q) hsurvey
  rw [hassemble] at hlast ⊢
  constructor
  · change (assemble _ _ r' _).reader.inclusions = _
    rw [inclusions_assemble_ofText hrest, hinclusions, hnone]
    rfl
  · exact congrArg (·.preprocessor.macros) (survey_assemble hsurvey' hlast hlast')

end Pasting

/-- A file that lexes behind some text may be pasted there or included, in front of any other text.
Both texts lex or neither does. The statements of the pasted text are those of the including one with
those of its one inclusion between them, where the text in front ends, and both leave the same
macros. -/
theorem run_pasted_iff_run_including {files : Files} {c : Configuration}
    (hdepth : 0 < c.maxIncludeDepth) {p f q : Text}
    (hp : ∀ line ∈ p.lines, line.getLast? = some '\n')
    (hf : ∀ line ∈ f.lines, line.getLast? = some '\n')
    (hfront : (Source.ofText p).includedNames = [])
    (hplain : (Source.ofText f).includedNames = [])
    (hrest : (Source.ofText q).includedNames = [])
    {macros middle left : MacroTable} {name : Option Path} {front d : Document}
    (hrun : Completes (.ofConfiguration files c) (.ofText p) macros name front middle)
    (hrun' : Completes (.ofConfiguration files c) (.ofText f) middle name d left)
    {path : Path} (hne : path ≠ []) (hquote : '"' ∉ path) (hbreak : '\n' ∉ path)
    (hfile : files (Path.join c.includeRoot path) = .file (Text.toUtf8 f)) :
    ((∃ x, ((start (.ofText (p ++ f ++ q)) macros name).run
        (.ofConfiguration files c)).result = .ok x) ↔
      ∃ y, ((start (.ofText (p ++ Line.including path ++ q)) macros name).run
        (.ofConfiguration files c)).result = .ok y) ∧
    ∀ x y, ((start (.ofText (p ++ f ++ q)) macros name).run
        (.ofConfiguration files c)).result = .ok x →
      ((start (.ofText (p ++ Line.including path ++ q)) macros name).run
        (.ofConfiguration files c)).result = .ok y →
      (∃ (inner rest : Document) (before after : List Statement),
        y.inclusions = [(Path.join c.includeRoot path, inner)] ∧
        y.statements = before ++ after ∧
        x.statements.map Statement.bare =
          (before ++ inner.statements ++ after).map Statement.bare ∧
        before.map Statement.bare = front.statements.map Statement.bare ∧
        inner.statements.map Statement.bare = d.statements.map Statement.bare ∧
        ((start (.ofText q) left name).run (.ofConfiguration files c)).result = .ok rest ∧
        after.map Statement.bare = rest.statements.map Statement.bare) ∧
      ((start (.ofText (p ++ f ++ q)) macros name).run (.ofConfiguration files c)).macros =
        ((start (.ofText (p ++ Line.including path ++ q)) macros name).run
          (.ofConfiguration files c)).macros := by
  have hpasted : Source.ofText (p ++ f ++ q) = .ofText p ++ (.ofText f ++ .ofText q) := by
    rw [List.append_assoc, Source.ofText_append hp, Source.ofText_append hf]
  have hincluding : Source.ofText (p ++ Line.including path ++ q) =
      .ofText p ++ .ok (Line.including path) :: Source.ofText q := by
    have hline : '\n' ∉ Lexeme.directiveMark ::
        (Directive.includeWord ++ ' ' :: ('"' :: path ++ ['"'])) := by
      simpa [Directive.includeWord, Lexeme.directiveMark] using hbreak
    rw [List.append_assoc, Source.ofText_append hp, Line.including,
      Source.ofText_line_append hline]
  have hgists := gists_pasted hrun hrun' (.ofText q)
  have hgists' := gists_including hrun hrun' hdepth hne hquote hfile hplain (.ofText q)
  obtain ⟨inner, hinner, hkept⟩ :=
    exists_inclusion hrun hrun' hdepth hne hquote hfile hplain hfront hrest
  rw [hpasted, hincluding]
  constructor
  · rw [exists_run_iff, exists_run_iff, Assembly.exists_ok_iff_of_gists hgists,
      Assembly.exists_ok_iff_of_gists hgists']
  intro x y hx hy
  obtain ⟨_, hbehind, hmacros⟩ := hrun.exists_run_append hx
  obtain ⟨rest, hrestrun, hmacros'⟩ := hrun'.exists_run_append hbehind
  obtain ⟨hinclusions, hkeptmacros⟩ := hkept y rest hy hrestrun
  rw [gists_of_run hx, gists_of_run hrestrun, ← List.map_append] at hgists
  rw [gists_of_run hy, gists_of_run hrestrun, ← List.map_append] at hgists'
  have hx' := map_bare_of_map_gist hgists
  have hy' := map_bare_of_map_gist hgists'
  rw [List.map_append] at hy'
  obtain ⟨before, after, hparts, hbefore, hafter⟩ := List.map_eq_append_iff.mp hy'
  constructor
  · refine ⟨inner, rest, before, after, hinclusions, hparts, ?_, hbefore, hinner, hrestrun, hafter⟩
    rw [hx']
    simp only [List.map_append, hbefore, hinner, hafter]
  · rw [hmacros, hmacros', hkeptmacros]

end Lexer

/-- A file system with one file in it. -/
def Files.header : Files := .ofEntries
  [("./a.h".toList, .file (Text.toUtf8 "! c\n#define N 50\ny = N\n".toList))]

namespace Lexer

/-- A file that defines a macro again, included behind a statement that is still to be completed. -/
theorem run_including_of_redefinition :
    ∃ x y inner before after,
      ((start (.ofText ("#define N 40\nx = N\n".toList ++ "! c\n#define N 50\ny = N\n".toList ++
        "z = N; a".toList)) .empty none).run (.ofConfiguration .header .standard)).result = .ok x ∧
      ((start (.ofText ("#define N 40\nx = N\n".toList ++ Line.including "a.h".toList ++
        "z = N; a".toList)) .empty none).run (.ofConfiguration .header .standard)).result = .ok y ∧
      x.values = [["x".toList, "=".toList, "40".toList], ["y".toList, "=".toList, "50".toList],
        ["z".toList, "=".toList, "50".toList], ["a".toList]] ∧
      y.inclusions = [("./a.h".toList, inner)] ∧ y.statements = before ++ after ∧
      x.statements.map Statement.bare =
        (before ++ inner.statements ++ after).map Statement.bare := by
  have hvalues : ((start (.ofText ("#define N 40\nx = N\n".toList ++
      "! c\n#define N 50\ny = N\n".toList ++ "z = N; a".toList)) .empty none).run
        (.ofConfiguration .header .standard)).result.toOption.map Document.values =
      some [["x".toList, "=".toList, "40".toList], ["y".toList, "=".toList, "50".toList],
        ["z".toList, "=".toList, "50".toList], ["a".toList]] := by
    decide +kernel
  have hfront : ((start (.ofText "#define N 40\nx = N\n".toList) .empty none).run
      (.ofConfiguration .header .standard)).result.toOption.map Document.values =
        some [["x".toList, "=".toList, "40".toList]] := by
    decide +kernel
  have hincluded : ((start (.ofText "! c\n#define N 50\ny = N\n".toList)
      ((start (.ofText "#define N 40\nx = N\n".toList) .empty none).run
        (.ofConfiguration .header .standard)).macros none).run
          (.ofConfiguration .header .standard)).result.toOption.map Document.values =
        some [["y".toList, "=".toList, "50".toList]] := by
    decide +kernel
  obtain ⟨x, hx, hxvalues⟩ := exists_of_map_toOption hvalues
  obtain ⟨_, hfrontrun, _⟩ := exists_of_map_toOption hfront
  obtain ⟨_, hincludedrun, _⟩ := exists_of_map_toOption hincluded
  obtain ⟨hiff, halike⟩ := run_pasted_iff_run_including (c := .standard) (by decide)
    (q := "z = N; a".toList) (by decide +kernel) (by decide +kernel) (by decide +kernel)
    (by decide +kernel) (by decide +kernel)
    ⟨hfrontrun, rfl, by decide +kernel, by decide +kernel, by decide +kernel⟩
    ⟨hincludedrun, rfl, by decide +kernel, by decide +kernel, by decide +kernel⟩
    (List.cons_ne_nil 'a' ['.', 'h']) (by decide) (by decide) rfl
  obtain ⟨y, hy⟩ := hiff.mp ⟨x, hx⟩
  obtain ⟨⟨inner, _, before, after, hinclusions, hparts, hstatements, _⟩, _⟩ := halike x y hx hy
  exact ⟨x, y, inner, before, after, hx, hy, hxvalues, hinclusions, hparts, hstatements⟩

end Lexer

end FreeForm
