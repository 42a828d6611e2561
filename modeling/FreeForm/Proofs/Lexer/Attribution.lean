import FreeForm.Lexing
import FreeForm.Proofs.Draft.Expansion
import FreeForm.Proofs.Lexer.Assembly
import FreeForm.Proofs.Reader.Findings
import FreeForm.Proofs.Reader.IncludeLine
import FreeForm.Proofs.Reader.Inclusions

namespace FreeForm

/-!
# Who reports what

The lexer of a source and the lexers of the files that it includes write one log. The events of the
lexer itself are those that remain when the included files are silent. Lexing a line may report
something of that line only: although a statement may still be open, and the lexer looks ahead for its
end, no lexeme of an earlier line is left to be taken.
-/

/-- A row with blocks put in between. -/
inductive Interspersed {α : Type} (Block : List α → Prop) : List α → List α → Prop
  | nil : Interspersed Block [] []
  | cons (a : α) {own all : List α} (rest : Interspersed Block own all) :
      Interspersed Block (a :: own) (a :: all)
  | block {b own all : List α} (hb : Block b) (rest : Interspersed Block own all) :
      Interspersed Block own (b ++ all)

namespace Interspersed

variable {α : Type} {Block : List α → Prop}

theorem refl (l : List α) : Interspersed Block l l := by
  induction l with
  | nil => exact .nil
  | cons a l ih => exact .cons a ih

theorem append {own all own' all' : List α} (h : Interspersed Block own all)
    (h' : Interspersed Block own' all') : Interspersed Block (own ++ own') (all ++ all') := by
  induction h with
  | nil => exact h'
  | cons a _ ih => exact .cons a ih
  | block hb _ ih =>
      rw [List.append_assoc]
      exact .block hb ih

theorem mono {Block' : List α → Prop} (hblock : ∀ b, Block b → Block' b) {own all : List α}
    (h : Interspersed Block own all) : Interspersed Block' own all := by
  induction h with
  | nil => exact .nil
  | cons a _ ih => exact .cons a ih
  | block hb _ ih => exact .block (hblock _ hb) ih

end Interspersed

namespace Environment

/-- The environment with the included files silent. They are lexed as before. -/
def muted (env : Environment) : Environment :=
  { env with
    nested := env.nested.map fun lex path source macros =>
      { lex path source macros with events := [] } }

theorem silent_muted (env : Environment) : env.muted.Silent := by
  intro lex hlex path source macros
  obtain ⟨lex', _, rfl⟩ := Option.map_eq_some_iff.mp hlex
  rfl

/-- The log of lexing an included file. -/
def Logs (env : Environment) (log : List Event) : Prop :=
  ∃ path bytes lex macros, env.files path = .file bytes ∧ env.nested = some lex ∧
    log = (lex path (.ofBytes bytes) macros).events

end Environment

variable (env : Environment)

namespace Reader

/-- Where the included files are silent, the same comes of including one. -/
theorem includeFile_muted (r : Reader) (name : Path) :
    ∃ own, r.includeFile env.muted name = { r.includeFile env name with events := own } ∧
      Interspersed env.Logs own (r.includeFile env name).events := by
  unfold includeFile Environment.muted
  dsimp only
  cases hentry : env.files (Path.join env.root name) with
  | directory => exact ⟨_, rfl, .refl _⟩
  | absent fault => exact ⟨_, rfl, .refl _⟩
  | unreadable fault => cases env.nested <;> exact ⟨_, rfl, .refl _⟩
  | file bytes =>
      cases hnested : env.nested with
      | none => exact ⟨_, rfl, .refl _⟩
      | some lex =>
          have hlog : env.Logs (lex (Path.join env.root name) (.ofBytes bytes) r.macros).events :=
            ⟨_, bytes, lex, r.macros, hentry, hnested, rfl⟩
          refine ⟨[.including (Path.join env.root name)], ?_, ?_⟩
          · simp only [Option.map_some]
            cases (lex (Path.join env.root name) (.ofBytes bytes) r.macros).result <;> rfl
          · have hbehind : Interspersed env.Logs [.including (Path.join env.root name)]
                (.including (Path.join env.root name) ::
                  (lex (Path.join env.root name) (.ofBytes bytes) r.macros).events) := by
              have hblock := Interspersed.block hlog .nil
              rw [List.append_nil] at hblock
              exact .cons _ hblock
            dsimp only
            split <;> exact hbehind

/-- Where the included files are silent, lines are read as before. -/
theorem read_muted (r : Reader) (line : SourceLine) :
    ∃ own, r.read env.muted line = { r.read env line with events := own } ∧
      Interspersed env.Logs own (r.read env line).events := by
  cases hname : r.inclusion? line with
  | none =>
      rw [read_of_inclusion?_eq_none hname env.muted env]
      exact ⟨_, rfl, .refl _⟩
  | some name =>
      obtain ⟨lead, event, hread⟩ := read_of_inclusion? hname
      obtain ⟨own, hmuted, hown⟩ :=
        includeFile_muted env { r with lineNumber := r.lineNumber + 1 } name
      refine ⟨event :: own, ?_, ?_⟩
      · rw [hread, hread, hmuted]
      · rw [hread]
        exact .cons event hown

/-- The reader behind some lines. -/
def behind (r : Reader) (lines : Source) : Reader :=
  lines.foldl (fun r line => (r.read env line).reader) r

theorem behind_muted (r : Reader) (lines : Source) :
    r.behind env.muted lines = r.behind env lines := by
  induction lines generalizing r with
  | nil => rfl
  | cons line lines ih =>
      obtain ⟨own, hmuted, _⟩ := read_muted env r line
      have hreader : (r.read env.muted line).reader = (r.read env line).reader := by rw [hmuted]
      simp only [behind, List.foldl_cons, hreader] at ih ⊢
      exact ih _

theorem source_behind (r : Reader) (lines : Source) : (r.behind env lines).source = r.source := by
  induction lines generalizing r with
  | nil => rfl
  | cons line lines ih => exact (ih _).trans (grown_read env r line).source

theorem lineNumber_behind (r : Reader) (lines : Source) :
    (r.behind env lines).lineNumber = r.lineNumber + lines.length := by
  induction lines generalizing r with
  | nil => rfl
  | cons line lines ih =>
      have hread : (r.read env line).reader.lineNumber = r.lineNumber + 1 :=
        (grown_read env r line).lineNumber
      have hbehind := ih (r.read env line).reader
      simp only [behind, List.foldl_cons, List.length_cons] at hbehind ⊢
      omega

end Reader

/-- Where the included files are silent, the lines amount to the same. -/
theorem assemble_muted (lines : Source) (r : Reader) (p : Phase) :
    ∃ own, assemble env.muted lines r p = { assemble env lines r p with events := own } ∧
      Interspersed env.Logs own (assemble env lines r p).events := by
  induction lines generalizing r p with
  | nil => exact ⟨[], rfl, .nil⟩
  | cons line lines ih =>
      obtain ⟨own, hmuted, hown⟩ := Reader.read_muted env r line
      simp only [assemble, hmuted, Phase.takeReading]
      cases (r.read env line).result with
      | error e => exact ⟨own, rfl, hown⟩
      | ok parts =>
          simp only [Taking.followedBy, Taking.prepend]
          cases (p.takeParts (r.read env line).reader parts).result with
          | error e => exact ⟨_, rfl, hown.append (.refl _)⟩
          | ok phase =>
              obtain ⟨later, hbehind, hlater⟩ := ih (r.read env line).reader phase
              simp only [hbehind, Assembly.prepend]
              exact ⟨_, rfl, (hown.append (.refl _)).append hlater⟩

/-- The diagnostic is of a name among some lexemes, which has been replaced. -/
structure Reader.Replaces (r : Reader) (content : List Lexeme) (d : Diagnostic) : Prop where
  source : d.source = r.source
  number : d.line = r.lineNumber
  finding : ∃ l ∈ content, l.isSemantic = true ∧
    ∃ replacement, d.finding = .macroExpanded l.text replacement

theorem Reader.Replaces.of_suffix {r : Reader} {content rest : List Lexeme} {d : Diagnostic}
    (h : r.Replaces rest d) (hrest : rest <:+ content) : r.Replaces content d := by
  obtain ⟨l, hl, hfinding⟩ := h.finding
  exact ⟨h.source, h.number, l, hrest.mem hl, hfinding⟩

theorem Draft.replaces_of_take (r : Reader) {draft draft' : Draft} {content rest : List Lexeme}
    {joined : List Event} (hr : draft.resume content = .ok (draft', rest, joined))
    {progress : Progress} {findings : List Finding}
    (ht : draft'.take r.macros rest = (progress, findings)) :
    ∀ d ∈ Event.diagnostics (joined ++ findings.map r.diagnosed), r.Replaces content d := by
  obtain ⟨hsilent, _⟩ := exists_resumes hr
  obtain ⟨front, back, hcut, _, _, hfindings, _⟩ := take_cases r.macros rest draft'
  rw [ht] at hfindings
  obtain rfl : findings = _ := hfindings
  intro d hd
  rw [Event.diagnostics_append, hsilent, List.nil_append, Event.diagnostics] at hd
  obtain ⟨event, hevent, hd⟩ := List.mem_filterMap.mp hd
  obtain ⟨finding, hfinding, rfl⟩ := List.mem_map.mp hevent
  obtain rfl := Option.some.inj hd
  obtain ⟨l, hl, hfinding⟩ := List.mem_flatMap.mp hfinding
  obtain ⟨hl, hsemantic⟩ := List.mem_filter.mp hl
  have hrest : l ∈ rest := by
    rw [hcut]
    exact List.mem_append_left back hl
  refine ⟨rfl, rfl, l, (suffix_of_resume hr).mem hrest, hsemantic, ?_⟩
  unfold expansionOf at hfinding
  split at hfinding
  · cases hfinding
  · exact ⟨_, List.mem_singleton.mp hfinding⟩

/-- Taking content reports the replacement of names that stand in it. -/
theorem Lexer.replaces_of_takeContent (r : Reader) (draft : Draft) (content : List Lexeme) :
    ∀ d ∈ Event.diagnostics (takeContent r draft content).events, r.Replaces content d := by
  fun_induction takeContent r draft content with
  | case1 draft content e hr => exact List.forall_mem_nil _
  | case2 draft content draft' rest joined hr draft'' findings ht =>
      exact Draft.replaces_of_take r hr ht
  | case3 draft content draft' rest joined hr s findings ht => exact Draft.replaces_of_take r hr ht
  | case4 draft content draft' rest joined hr s l ls findings ht ih =>
      intro d hd
      simp only [Taking.prepend, Event.diagnostics_append (joined ++ _), List.mem_append] at hd
      rcases hd with hd | hd
      · exact Draft.replaces_of_take r hr ht d hd
      · exact (ih d hd).of_suffix ((Draft.suffix_of_take ht).trans (Draft.suffix_of_resume hr))

section Silent

variable {env : Environment} (hsilent : env.Silent)
include hsilent

/-- What a line amounts to is reported of that line. -/
theorem Phase.reports_of_takeReading (r : Reader) (p : Phase) (line : SourceLine) :
    ∀ d ∈ Event.diagnostics (p.takeReading (r.read env line)).events, r.Reports line d := by
  have hread := Reader.reports_of_read hsilent r line
  unfold takeReading
  cases hresult : (r.read env line).result with
  | error e => exact hread
  | ok parts =>
      have hreader := Reader.grown_read env r line
      have hcontent : ∀ d, (r.read env line).reader.Replaces parts.content d →
          r.Reports line d := by
        intro d hd
        obtain ⟨l, hl, hsemantic, replacement, hfinding⟩ := hd.finding
        obtain ⟨text, hline, hl⟩ := Reader.mem_lexemes_of_mem_content r hresult hl
        refine ⟨hd.source.trans hreader.source, hd.number.trans hreader.lineNumber, text, hline, ?_⟩
        rw [hfinding]
        exact ⟨l, hl, hsemantic, rfl⟩
      intro d hd
      simp only [Taking.prepend, Event.diagnostics_append, List.mem_append] at hd
      rcases hd with hd | hd
      · exact hread d hd
      · unfold takeParts at hd
        cases hparts : parts.content with
        | nil =>
            simp only [hparts] at hd
            cases hd
        | cons l ls =>
            rw [hparts] at hcontent
            cases hphase : p.addLiminals parts.lead with
            | building draft =>
                simp only [hparts, hphase] at hd
                exact hcontent d (Lexer.replaces_of_takeContent _ _ _ d hd)
            | complete s ahead =>
                simp only [hparts, hphase, Taking.prepend, List.nil_append] at hd
                exact hcontent d (Lexer.replaces_of_takeContent _ _ _ d hd)

/-- Whatever is reported of some lines is of one of them, as the reader in front of it has it. -/
theorem exists_reports_of_assemble (lines : Source) (r : Reader) (p : Phase) :
    ∀ d ∈ Event.diagnostics (assemble env lines r p).events,
      ∃ front line back, lines = front ++ line :: back ∧ (r.behind env front).Reports line d := by
  induction lines generalizing r p with
  | nil => exact List.forall_mem_nil _
  | cons line lines ih =>
      intro d hd
      have hline := Phase.reports_of_takeReading hsilent r p line
      unfold assemble Taking.followedBy at hd
      cases htaken : (p.takeReading (r.read env line)).result with
      | error e =>
          simp only [htaken] at hd
          exact ⟨[], line, lines, rfl, hline d hd⟩
      | ok phase =>
          simp only [htaken, Assembly.prepend, Event.diagnostics_append, List.mem_append] at hd
          rcases hd with hd | hd
          · exact ⟨[], line, lines, rfl, hline d hd⟩
          · obtain ⟨front, later, back, rfl, hreports⟩ := ih _ _ d hd
            exact ⟨line :: front, later, back, rfl, hreports⟩

/-- Lines are reported of in their order. -/
theorem pairwise_line_assemble (lines : Source) (r : Reader) (p : Phase) :
    (Event.diagnostics (assemble env lines r p).events).Pairwise (·.line ≤ ·.line) := by
  induction lines generalizing r p with
  | nil => exact .nil
  | cons line lines ih =>
      have hline := fun d hd => (Phase.reports_of_takeReading hsilent r p line d hd).number
      have hfirst : (Event.diagnostics (p.takeReading (r.read env line)).events).Pairwise
          (·.line ≤ ·.line) :=
        List.pairwise_of_forall_mem_list fun d hd e he => by rw [hline d hd, hline e he]
      unfold assemble Taking.followedBy
      cases htaken : (p.takeReading (r.read env line)).result with
      | error e => exact hfirst
      | ok phase =>
          simp only [Assembly.prepend, Event.diagnostics_append]
          refine List.pairwise_append.mpr ⟨hfirst, ih _ _, fun d hd e he => ?_⟩
          obtain ⟨front, later, _, _, hreports⟩ := exists_reports_of_assemble hsilent _ _ _ e he
          have hnumber := hreports.number
          rw [Reader.lineNumber_behind, (Reader.grown_read env r line).lineNumber] at hnumber
          rw [hline d hd, hnumber]
          dsimp only
          omega

end Silent

namespace Environment

/-- What a source is lexed in where `levels` more levels of inclusion are allowed. -/
def ofLevels (files : Files) (c : Configuration) (levels : Nat) : Environment :=
  ⟨files, c.includeRoot, c.maxIncludeDepth,
    nestedLexing files c.includeRoot c.maxIncludeDepth levels⟩

end Environment

namespace Lexer

/-- The log of lexing a source is told apart. The events of the lexer itself are those that remain
when the included files are silent; its diagnostics name the source and lines of the source that bear
them out, in the order of the lines. Everything else in the log are blocks. -/
structure ToldApart (env : Environment) (Block : List Event → Prop) (source : Source)
    (macros : MacroTable) (name : Option Path) : Prop where
  located : ∀ d ∈ Event.diagnostics ((start source macros name).run env.muted).events,
    d.source = name ∧ ∃ front line back, source = front ++ .ok line :: back ∧
      d.line = front.length + 1 ∧
      Line.Bears line (((Reader.start name macros).behind env front).survey.lexemes line) d.finding
  ordered : (Event.diagnostics ((start source macros name).run env.muted).events).Pairwise
    (·.line ≤ ·.line)
  log : Interspersed Block ((start source macros name).run env.muted).events
    ((start source macros name).run env).events

theorem toldApart (env : Environment) (source : Source) (macros : MacroTable)
    (name : Option Path) : ToldApart env env.Logs source macros name := by
  constructor
  · intro d hd
    rw [events_run] at hd
    obtain ⟨front, line, back, hsource, hreports⟩ :=
      exists_reports_of_assemble env.silent_muted _ _ _ d hd
    obtain ⟨text, rfl, hbears⟩ := hreports.borne
    have hnamed := hreports.source
    have hnumber := hreports.number
    rw [Reader.source_behind] at hnamed
    rw [Reader.lineNumber_behind] at hnumber
    rw [Reader.behind_muted] at hbears
    refine ⟨hnamed, front, text, back, hsource, ?_, hbears⟩
    simpa [Reader.start] using hnumber
  · rw [events_run]
    exact pairwise_line_assemble env.silent_muted _ _ _
  · rw [events_run, events_run]
    obtain ⟨own, hmuted, hown⟩ :=
      assemble_muted env source (.start name macros) (.building (.ofLiminals []))
    rw [hmuted]
    exact hown

/-- The log of lexing a source is told apart, and the blocks in it are the logs of lexing included
files one level deeper, which are told apart in the same way. -/
def Attributed (files : Files) (c : Configuration) :
    Nat → Source → MacroTable → Option Path → Prop
  | 0 => ToldApart (.ofLevels files c 0) fun _ => False
  | levels + 1 => ToldApart (.ofLevels files c (levels + 1)) fun log =>
      ∃ path bytes macros, files path = .file bytes ∧
        log = ((start (.ofBytes bytes) macros (some path)).run (.ofLevels files c levels)).events ∧
        Attributed files c levels (.ofBytes bytes) macros (some path)

theorem attributed (files : Files) (c : Configuration) (levels : Nat) (source : Source)
    (macros : MacroTable) (name : Option Path) : Attributed files c levels source macros name := by
  induction levels generalizing source macros name with
  | zero =>
      obtain ⟨hlocated, hordered, hlog⟩ := toldApart (.ofLevels files c 0) source macros name
      refine ⟨hlocated, hordered, hlog.mono fun log hlog => ?_⟩
      obtain ⟨_, _, _, _, _, hnested, _⟩ := hlog
      cases hnested
  | succ levels ih =>
      obtain ⟨hlocated, hordered, hlog⟩ :=
        toldApart (.ofLevels files c (levels + 1)) source macros name
      refine ⟨hlocated, hordered, hlog.mono fun log hlog => ?_⟩
      obtain ⟨path, bytes, lex, macros', hentry, hnested, hlog⟩ := hlog
      cases hnested
      exact ⟨path, bytes, macros', hentry, hlog, ih _ _ _⟩

end Lexer

/-- Every diagnostic of a run names the source of the lexer that reports it and the line in question,
and no lexer goes back to an earlier line. -/
theorem lexSource_attributed (files : Files) (c : Configuration) (source : Source)
    (name : Option Path) :
    (∃ e, c.macroTable = .error e ∧ (lexSource files c source name).events = []) ∨
      ∃ macros, c.macroTable = .ok macros ∧
        (lexSource files c source name).events = ((Lexer.start source macros name).run
          (.ofLevels files c c.maxIncludeDepth)).events ∧
        Lexer.Attributed files c c.maxIncludeDepth source macros name := by
  unfold lexSource Lexer.ofSource
  cases hmacros : c.macroTable with
  | error e => exact .inl ⟨e, rfl, rfl⟩
  | ok macros => exact .inr ⟨macros, rfl, rfl, Lexer.attributed files c _ source macros name⟩

/-- The lexer of a source is inside a statement when the lexer of an included file begins. -/
example :
    (Event.diagnostics (lexText (.ofEntries
        [("./a".toList, .file (Text.toUtf8 "#undef B\nA = A\n".toList))]) .standard
        "#define A x\nA = &\n#include <a>\n A; A\n#pragma\n".toList).events).map
      (fun d => (d.source, d.line)) =
    [(none, 2), (some "./a".toList, 1), (some "./a".toList, 2), (some "./a".toList, 2),
      (none, 4), (none, 4), (none, 5)] := by
  decide +kernel

end FreeForm
