import FreeForm.Lexing
import FreeForm.Proofs.Lexer.Assembly
import FreeForm.Proofs.Lexer.Conservation
import FreeForm.Proofs.Reader.Inclusions
import FreeForm.Proofs.Text.Decoding

namespace FreeForm

/-!
# Documents spell their sources

A document that a source was lexed into spells the source, whatever was expanded, joined, skipped or
included on the way. Every document that it includes, at any depth, spells the file at its path.
-/

namespace Source

/-- No line of a source is a fault. -/
def Sound (source : Source) : Prop :=
  ∀ line ∈ source, ∃ t, line = .ok t

theorem toUtf8_text_decode {rows : List (List UInt8)} (h : (decode rows).Sound) :
    Text.toUtf8 (decode rows).text = rows.flatten := by
  rcases decode_cases rows with ⟨lines, hrows, hdecode⟩ | ⟨lines, row, others, _, _, hdecode⟩
  · rw [hdecode, text_map_ok, hrows, ← List.flatMap_def, Text.flatMap_toUtf8]
  · rw [hdecode] at h
    obtain ⟨t, ht⟩ := h _ (List.mem_append_right _ List.mem_cons_self)
    cases ht

/-- The text of a file is encoded by the bytes of the file. -/
theorem toUtf8_text_ofBytes {bytes : List UInt8} (h : (ofBytes bytes).Sound) :
    Text.toUtf8 (ofBytes bytes).text = bytes := by
  rw [ofBytes, toUtf8_text_decode h, splitAfter_flatten]

end Source

/-- A document includes another at its path, directly or through documents in between. -/
inductive Document.Includes : Document → Path → Document → Prop where
  | direct {d e : Document} {path : Path} (h : (path, e) ∈ d.inclusions) : Includes d path e
  | nested {d e f : Document} {path inner : Path} (h : (path, e) ∈ d.inclusions)
      (hnested : Includes e inner f) : Includes d inner f

theorem sound_of_assemble (env : Environment) {lines : Source} {r : Reader}
    {phase last : Phase} (h : (assemble env lines r phase).result = .ok last) : lines.Sound := by
  induction lines generalizing r phase with
  | nil =>
      intro line hline
      cases hline
  | cons line lines ih =>
      simp only [assemble, Taking.followedBy] at h
      split at h
      · cases h
      · rename_i phase' hphase
        have hrest := ih h
        cases line with
        | error fault => simp [Phase.takeReading, Reader.read] at hphase
        | ok t =>
            intro l hl
            rcases List.mem_cons.mp hl with rfl | hl
            · exact ⟨t, rfl⟩
            · exact hrest l hl

namespace Lexer

theorem source_drain (env : Environment) {x : Lexer} (hx : x.status = .ready)
    (h : (x.drain env).failure = none) :
    (x.drain env).statements.flatMap Statement.source ++ (x.drain env).lexer.outstanding =
      x.outstanding := by
  fun_induction drain env x with
  | case1 x y events hnext =>
      have hstep := conserves_next env (x := x) (by simp [hx])
      rw [hnext] at hstep
      cases hy : y.status with
      | ready => simpa [Yield.source] using hstep.whole hy
      | deferred e =>
          obtain ⟨s, hs⟩ := hstep.owed e hy
          cases hs
      | failed =>
          obtain ⟨e, he⟩ := hstep.told hy
          cases he
  | case2 x e y events hnext => cases h
  | case3 x s y events hnext ih =>
      have hstep := conserves_next env (x := x) (by simp [hx])
      rw [hnext] at hstep
      cases hy : y.status with
      | ready =>
          simpa [Yielded.cons, Yield.source, ← hstep.whole hy] using ih hy h
      | deferred e =>
          rw [drain_eq_drainStep, next_of_deferred env hy] at h
          cases h
      | failed =>
          obtain ⟨e, he⟩ := hstep.told hy
          cases he

/-- A run that gives a document has read the whole source, and the document spells it. -/
theorem source_of_run (env : Environment) {source : Source} {macros : MacroTable}
    {name : Option Path} {d : Document}
    (h : ((start source macros name).run env).result = .ok d) :
    source.Sound ∧ d.source = source.text ∧ ∀ i ∈ d.inclusions, env.Lexed i := by
  obtain ⟨phase, hresult, rfl⟩ := exists_of_run h
  have hsource := source_drain env (x := start source macros name) rfl
  simp only [drain_start, Assembly.yielded, hresult] at hsource
  refine ⟨sound_of_assemble env hresult, ?_, ?_⟩
  · simpa [Document.source, outstanding, start] using hsource trivial
  · exact reader_assemble_induction env (I := Reader.Genuine env) (fun r line hr => hr.read line)
      source (Reader.genuine_start env name macros) (.building (.ofLiminals []))

/-- A document includes only documents that the files at their paths were lexed into. -/
theorem exists_run_of_includes (files : Files) (root : Path) (maxDepth levels : Nat)
    {source : Source} {macros : MacroTable} {name : Option Path} {d e : Document} {path : Path}
    (h : ((start source macros name).run
      ⟨files, root, maxDepth, Environment.nestedLexing files root maxDepth levels⟩).result = .ok d)
    (he : d.Includes path e) :
    ∃ bytes env table, files path = .file bytes ∧
      ((start (.ofBytes bytes) table (some path)).run env).result = .ok e := by
  induction levels generalizing source macros name d with
  | zero =>
      obtain ⟨_, _, hlexed⟩ := source_of_run _ h
      cases he with
      | direct hmem =>
          obtain ⟨_, _, _, _, hnested, _⟩ := hlexed _ hmem
          cases hnested
      | nested hmem _ =>
          obtain ⟨_, _, _, _, hnested, _⟩ := hlexed _ hmem
          cases hnested
  | succ levels ih =>
      obtain ⟨_, _, hlexed⟩ := source_of_run _ h
      cases he with
      | direct hmem =>
          obtain ⟨bytes, lex, table, hfile, hnested, hrun⟩ := hlexed _ hmem
          cases hnested
          exact ⟨bytes, _, table, hfile, hrun⟩
      | nested hmem hinner =>
          obtain ⟨_, _, _, _, hnested, hrun⟩ := hlexed _ hmem
          cases hnested
          exact ih hrun hinner

/-- A document includes only documents that spell the files at their paths. -/
theorem source_of_includes (files : Files) (root : Path) (maxDepth levels : Nat)
    {source : Source} {macros : MacroTable} {name : Option Path} {d e : Document} {path : Path}
    (h : ((start source macros name).run
      ⟨files, root, maxDepth, Environment.nestedLexing files root maxDepth levels⟩).result = .ok d)
    (he : d.Includes path e) : files path = .file (Text.toUtf8 e.source) := by
  obtain ⟨bytes, env, table, hfile, hrun⟩ := exists_run_of_includes files root maxDepth levels h he
  obtain ⟨hsound, hspelled, _⟩ := source_of_run env hrun
  rw [hspelled, Source.toUtf8_text_ofBytes hsound]
  exact hfile

end Lexer

theorem run_of_lexText {files : Files} {c : Configuration} {t : Text} {d : Document}
    (h : (lexText files c t).result = .ok d) :
    ∃ macros, ((Lexer.start (.ofText t) macros none).run
      (.ofConfiguration files c)).result = .ok d := by
  unfold lexText lexSource at h
  split at h
  · cases h
  · rename_i x hx
    cases hmacros : c.macroTable with
    | error e => simp [Lexer.ofSource, hmacros, Except.map] at hx
    | ok macros =>
        simp only [Lexer.ofSource, hmacros, Except.map, Except.ok.injEq] at hx
        exact ⟨macros, hx ▸ h⟩

/-- A document spells the text that it was lexed from, under any configuration, and every document
that it includes at any depth spells the file at its path. -/
theorem source_lexText {files : Files} {c : Configuration} {t : Text} {d : Document}
    (h : (lexText files c t).result = .ok d) :
    d.source = t ∧ ∀ path e, d.Includes path e → files path = .file (Text.toUtf8 e.source) := by
  obtain ⟨macros, hrun⟩ := run_of_lexText h
  obtain ⟨_, hspelled, _⟩ := Lexer.source_of_run _ hrun
  refine ⟨by simpa using hspelled, fun path e he => ?_⟩
  exact Lexer.source_of_includes files c.includeRoot c.maxIncludeDepth c.maxIncludeDepth hrun he

theorem source_lexText_of_nested :
    ∃ d, (lexText (.ofEntries [("./a".toList, .file (Text.toUtf8 "#include <b>\n".toList)),
        ("./b".toList, .file (Text.toUtf8 "y".toList))]) .standard
        "#include <a>\n#define E\nE x = al&\n&pha".toList).result = .ok d ∧
      d.height = 2 ∧ d.source = "#include <a>\n#define E\nE x = al&\n&pha".toList := by
  have hheight : (lexText (.ofEntries [("./a".toList, .file (Text.toUtf8 "#include <b>\n".toList)),
      ("./b".toList, .file (Text.toUtf8 "y".toList))]) .standard
      "#include <a>\n#define E\nE x = al&\n&pha".toList).result.toOption.map Document.height =
        some 2 := by
    decide +kernel
  obtain ⟨d, hresult, hd⟩ := exists_of_map_toOption hheight
  exact ⟨d, hresult, hd, (source_lexText hresult).1⟩

end FreeForm
