import FreeForm.Reader

namespace FreeForm

/-!
# What reading leaves alone

Reading a line, directives and all, counts the line and never renames the source. Of the documents
kept it drops none, and those that it adds are what the nested lexer made of the files at their
paths.
-/

/-- A document with its path, lexed from the file at the path by the nested lexer. -/
def Environment.Lexed (env : Environment) (i : Path × Document) : Prop :=
  ∃ bytes lex macros, env.files i.1 = .file bytes ∧ env.nested = some lex ∧
    (lex i.1 (.ofBytes bytes) macros).result = .ok i.2

namespace Reader

/-- A reader in the same place of the same source, with more documents at most. -/
structure Grown (env : Environment) (r r' : Reader) : Prop where
  source : r'.source = r.source
  lineNumber : r'.lineNumber = r.lineNumber
  inclusions : ∃ added, r'.inclusions = r.inclusions ++ added ∧ ∀ i ∈ added, env.Lexed i

variable (env : Environment) (r : Reader)

theorem grown_of_eq {r r' : Reader} (hsource : r'.source = r.source)
    (hnumber : r'.lineNumber = r.lineNumber) (hkept : r'.inclusions = r.inclusions) :
    Grown env r r' := by
  refine ⟨hsource, hnumber, [], ?_, ?_⟩
  · rw [hkept, List.append_nil]
  · intro i hi
    cases hi

theorem grown_includeFile (name : Path) : Grown env r (r.includeFile env name).reader := by
  unfold includeFile
  dsimp only
  split
  case h_6 bytes lex hfile hnested =>
    split
    · exact grown_of_eq env rfl rfl rfl
    · rename_i d hd
      refine ⟨rfl, rfl, [(Path.join env.root name, d)], rfl, ?_⟩
      intro i hi
      rw [List.mem_singleton.mp hi]
      exact ⟨bytes, lex, r.macros, hfile, hnested, hd⟩
  all_goals exact grown_of_eq env rfl rfl rfl

theorem grown_settle (outcome : Outcome) : Grown env r (r.settle env outcome).reader := by
  cases outcome with
  | applied => exact grown_of_eq env rfl rfl rfl
  | includeFile name => exact grown_includeFile env r name
  | report finding => exact grown_of_eq env rfl rfl rfl

theorem grown_apply (d : Directive) : Grown env r (r.apply env d).reader := by
  unfold apply
  dsimp only
  split
  · exact grown_of_eq env rfl rfl rfl
  · rename_i outcome preprocessor _
    have hsettled := grown_settle env { r with preprocessor := preprocessor } outcome
    exact ⟨hsettled.source, hsettled.lineNumber, hsettled.inclusions⟩

theorem grown_direct (text : Text) : Grown env r (r.direct env text).reader := by
  unfold direct
  split
  · exact grown_of_eq env rfl rfl rfl
  · split
    · exact grown_of_eq env rfl rfl rfl
    · exact grown_apply env r _

theorem grown_readText (line : Text) : Grown env r (r.readText env line).reader := by
  unfold readText
  split
  · exact grown_of_eq env rfl rfl rfl
  · split
    · exact grown_of_eq env rfl rfl rfl
    · rename_i lexemes scanner _
      dsimp only
      split
      · exact grown_of_eq env rfl rfl rfl
      · rename_i text _
        have hdirected := grown_direct env { r with scanner := scanner } text
        exact ⟨hdirected.source, hdirected.lineNumber, hdirected.inclusions⟩

theorem grown_read (line : SourceLine) :
    Grown env { r with lineNumber := r.lineNumber + 1 } (r.read env line).reader := by
  cases line with
  | error fault => exact grown_of_eq env rfl rfl rfl
  | ok text => exact grown_readText env _ text

/-- All documents that a reader keeps were lexed from the files at their paths. -/
def Genuine (env : Environment) (r : Reader) : Prop :=
  ∀ i ∈ r.inclusions, env.Lexed i

theorem genuine_start (source : Option Path) (macros : MacroTable) :
    (start source macros).Genuine env := by
  intro i hi
  cases hi

theorem Genuine.read {env : Environment} {r : Reader} (h : r.Genuine env) (line : SourceLine) :
    (r.read env line).reader.Genuine env := by
  obtain ⟨added, hadded, hlexed⟩ := (grown_read env r line).inclusions
  intro i hi
  rw [hadded] at hi
  rcases List.mem_append.mp hi with hi | hi
  · exact h i hi
  · exact hlexed i hi

end Reader

end FreeForm
