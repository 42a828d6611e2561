import FreeForm.Proofs.Lexer.Requests

namespace FreeForm

/-!
# Assembling line by line

The lexer is asked for one statement at a time and keeps what it read too far. Here the same lines
are taken strictly one after another, each with all the statements it completes, and nothing is kept
but the phase between two lines. Draining a lexer gives what assembling its lines gives, so that
what is to be known of a whole run can be shown by induction on the lines.
-/

/-- What a line amounts to: the statements it completes, and the phase behind it or an error. -/
structure Taking where
  statements : List Statement
  result : Except LexError Phase
  events : List Event

/-- What some lines amount to. An error comes with the lines behind it. -/
structure Assembly where
  statements : List Statement
  reader : Reader
  result : Except (LexError × Source) Phase
  events : List Event

namespace Taking

def prepend (statements : List Statement) (events : List Event) (t : Taking) : Taking :=
  ⟨statements ++ t.statements, t.result, events ++ t.events⟩

end Taking

namespace Assembly

def prepend (statements : List Statement) (events : List Event) (a : Assembly) : Assembly :=
  ⟨statements ++ a.statements, a.reader, a.result, events ++ a.events⟩

@[simp] theorem prepend_nil (a : Assembly) : a.prepend [] [] = a := rfl

@[simp] theorem prepend_prepend (ss ts : List Statement) (es fs : List Event) (a : Assembly) :
    (a.prepend ts fs).prepend ss es = a.prepend (ss ++ ts) (es ++ fs) := by
  simp [prepend]

end Assembly

/-- A line is taken; `rest` goes on behind it. -/
def Taking.followedBy (t : Taking) (r : Reader) (lines : Source) (rest : Phase → Assembly) :
    Assembly :=
  match t.result with
  | .error e => ⟨t.statements, r, .error (e, lines), t.events⟩
  | .ok phase => (rest phase).prepend t.statements t.events

theorem Taking.followedBy_prepend (ss : List Statement) (es : List Event) (t : Taking)
    (r : Reader) (lines : Source) (rest : Phase → Assembly) :
    (t.prepend ss es).followedBy r lines rest = (t.followedBy r lines rest).prepend ss es := by
  obtain ⟨ts, result, fs⟩ := t
  cases result <;> simp [followedBy, prepend, Assembly.prepend]

namespace Lexer

/-- Takes the content of a line, statement after statement. -/
def takeContent (r : Reader) (d : Draft) (content : List Lexeme) : Taking :=
  match _hr : d.resume content with
  | .error e => ⟨[], .error e, []⟩
  | .ok (d', rest, joined) =>
      match _ht : d'.take r.macros rest with
      | (.open d'', findings) =>
          ⟨[], .ok (.building d''), joined ++ findings.map r.diagnosed⟩
      | (.closed s [], findings) =>
          ⟨[], .ok (.complete s []), joined ++ findings.map r.diagnosed⟩
      | (.closed s (l :: ls), findings) =>
          (takeContent r (.ofLiminals []) (l :: ls)).prepend [s]
            (joined ++ findings.map r.diagnosed)
termination_by content.length
decreasing_by
  exact Nat.lt_of_lt_of_le (Draft.length_lt_of_take _ht (List.cons_ne_nil l ls))
    (Draft.length_le_of_resume _hr)

theorem takeContent_eq (r : Reader) (d : Draft) (content : List Lexeme) :
    takeContent r d content =
      match d.resume content with
      | .error e => ⟨[], .error e, []⟩
      | .ok (d', rest, joined) =>
          match d'.take r.macros rest with
          | (.open d'', findings) =>
              ⟨[], .ok (.building d''), joined ++ findings.map r.diagnosed⟩
          | (.closed s [], findings) =>
              ⟨[], .ok (.complete s []), joined ++ findings.map r.diagnosed⟩
          | (.closed s (l :: ls), findings) =>
              (takeContent r (.ofLiminals []) (l :: ls)).prepend [s]
                (joined ++ findings.map r.diagnosed) := by
  rw [takeContent]
  split
  · rename_i e hr
    rw [hr]
  · rename_i d' rest joined hr
    rw [hr]
    dsimp only
    split <;> rename_i ht <;> rw [ht]
end Lexer

namespace Phase

/-- The statement that an error comes behind. -/
def due : Phase → List Statement
  | .building _ => []
  | .complete s _ => [s]

/-- The statement that the end of the source completes. -/
def last : Phase → List Statement
  | .building d => d.statement?.toList
  | .complete s ahead => [s.addTail ahead]

/-- The liminal text that the end of the source leaves over. -/
def trailing : Phase → List Text
  | .building d => if d.statement?.isNone then d.liminals else []
  | .complete _ _ => []

def takeParts (r : Reader) (phase : Phase) (parts : LineParts) : Taking :=
  match parts.content, phase.addLiminals parts.lead with
  | [], phase => ⟨[], .ok phase, []⟩
  | l :: ls, .building d => Lexer.takeContent r d (l :: ls)
  | l :: ls, .complete s ahead =>
      (Lexer.takeContent r (.ofLiminals []) (l :: ls)).prepend [s.addTail ahead] []

def takeReading (phase : Phase) (reading : Reading LineParts) : Taking :=
  match reading.result with
  | .error e => ⟨phase.due, .error e, reading.events⟩
  | .ok parts => (phase.takeParts reading.reader parts).prepend [] reading.events

end Phase

def assemble (env : Environment) : Source → Reader → Phase → Assembly
  | [], r, phase => ⟨[], r, .ok phase, []⟩
  | line :: lines, r, phase =>
      (phase.takeReading (r.read env line)).followedBy (r.read env line).reader lines
        fun phase => assemble env lines (r.read env line).reader phase

theorem Phase.takeReading_building (r : Reader) (d : Draft) (lead : List Text) (l : Lexeme)
    (ls : List Lexeme) :
    (building d).takeReading ⟨.ok ⟨lead, l :: ls⟩, r, []⟩ =
      Lexer.takeContent r (d.addLiminals lead) (l :: ls) :=
  rfl

theorem assemble_cons {env : Environment} {r : Reader} {p phase : Phase} {line : SourceLine}
    {ss : List Statement} {events : List Event}
    (h : p.takeReading (r.read env line) = ⟨ss, .ok phase, events⟩) (lines : Source) :
    assemble env (line :: lines) r p =
      (assemble env lines (r.read env line).reader phase).prepend ss events := by
  rw [assemble, h]
  rfl

/-- Lines that are all taken are taken one after another. -/
theorem exists_of_assemble_cons {env : Environment} {r : Reader} {p phase : Phase}
    {line : SourceLine} {lines : Source} (h : (assemble env (line :: lines) r p).result = .ok phase) :
    ∃ ss behind events, p.takeReading (r.read env line) = ⟨ss, .ok behind, events⟩ ∧
      (assemble env lines (r.read env line).reader behind).result = .ok phase ∧
      (assemble env (line :: lines) r p).statements =
        ss ++ (assemble env lines (r.read env line).reader behind).statements := by
  rw [assemble] at h ⊢
  generalize p.takeReading (r.read env line) = taken at h ⊢
  obtain ⟨ss, result, events⟩ := taken
  cases result with
  | error e => cases h
  | ok behind => exact ⟨ss, behind, events, rfl, h, rfl⟩

/-- The source ends behind some lines. -/
def Assembly.yielded (a : Assembly) : Lexer.Yielded :=
  match a.result with
  | .error (e, lines) => ⟨a.statements, some e, ⟨a.reader, lines, [], [], .failed⟩, a.events⟩
  | .ok phase =>
      ⟨a.statements ++ phase.last, none, ⟨a.reader, [], [], phase.trailing, .ready⟩, a.events⟩

/-- The source ends behind some lines, and all that it was lexed into is kept. -/
def Assembly.run (a : Assembly) : Run :=
  ⟨a.result.mapError Prod.fst |>.map fun phase =>
      ⟨a.statements ++ phase.last, phase.trailing, a.reader.inclusions⟩,
    a.reader.macros, a.events⟩

/-- Lines can be assembled in two goes. -/
theorem assemble_append (env : Environment) (lines more : Source) (r : Reader) (phase : Phase) :
    assemble env (lines ++ more) r phase =
      match (assemble env lines r phase).result with
      | .error (e, rest) => { assemble env lines r phase with result := .error (e, rest ++ more) }
      | .ok phase' =>
          (assemble env more (assemble env lines r phase).reader phase').prepend
            (assemble env lines r phase).statements (assemble env lines r phase).events := by
  induction lines generalizing r phase with
  | nil => rfl
  | cons line lines ih =>
      simp only [List.cons_append, assemble, Taking.followedBy]
      cases (phase.takeReading (r.read env line)).result with
      | error e => rfl
      | ok phase' =>
          simp only [ih, Assembly.prepend]
          cases (assemble env lines (r.read env line).reader phase').result with
          | error e => rfl
          | ok phase'' => simp

/-- What reading one line keeps, assembling keeps. -/
theorem reader_assemble_induction (env : Environment) {I : Reader → Prop}
    (hread : ∀ r line, I r → I (r.read env line).reader) (lines : Source) {r : Reader}
    (hr : I r) (phase : Phase) : I (assemble env lines r phase).reader := by
  induction lines generalizing r phase with
  | nil => exact hr
  | cons line lines ih =>
      simp only [assemble, Taking.followedBy]
      split
      · exact hread r line hr
      · exact ih (hread r line hr) _

namespace Lexer

def Yielded.prepend (statements : List Statement) (events : List Event) (y : Yielded) : Yielded :=
  { y with statements := statements ++ y.statements, events := events ++ y.events }

theorem yielded_prepend (ss : List Statement) (es : List Event) (a : Assembly) :
    (a.prepend ss es).yielded = a.yielded.prepend ss es := by
  obtain ⟨ts, r, result, fs⟩ := a
  cases result <;> simp [Assembly.yielded, Assembly.prepend, Yielded.prepend]

/-- What a lexer yields from a step on. -/
def drainStep (env : Environment) (step : Step) : Yielded :=
  match step.yield with
  | .finished => ⟨[], none, step.lexer, step.events⟩
  | .failure e => ⟨[], some e, step.lexer, step.events⟩
  | .statement s => (step.lexer.drain env).prepend [s] step.events

theorem drain_eq_drainStep (env : Environment) (x : Lexer) :
    x.drain env = drainStep env (x.next env) := by
  rw [drain]
  split <;> rename_i heq <;> simp [heq, drainStep, Yielded.cons, Yielded.prepend]

theorem drainStep_after (env : Environment) (events : List Event) (step : Step) :
    drainStep env (step.after events) = (drainStep env step).prepend [] events := by
  obtain ⟨yield, x, es⟩ := step
  cases yield <;> simp [drainStep, Step.after, Yielded.prepend]

theorem drain_of_exhausted (env : Environment) (r : Reader) (pending : List Text) :
    drain env ⟨r, [], [], pending, .ready⟩ = ⟨[], none, ⟨r, [], [], pending, .ready⟩, []⟩ := by
  rw [drain_eq_drainStep]
  rfl

theorem drain_of_deferred (env : Environment) (r : Reader) (lines : Source) (e : LexError) :
    drain env ⟨r, lines, [], [], .deferred e⟩ =
      ⟨[], some e, ⟨r, lines, [], [], .failed⟩, []⟩ := by
  rw [drain_eq_drainStep]
  rfl

theorem drain_of_cache (env : Environment) (r : Reader) (lines : Source) (l : Lexeme)
    (ls : List Lexeme) :
    drain env ⟨r, lines, l :: ls, [], .ready⟩ =
      drainStep env (consume r lines (advance env lines) (.ofLiminals []) (l :: ls)) := by
  rw [drain_eq_drainStep]
  rfl

theorem drainStep_atEnd (env : Environment) (r : Reader) (phase : Phase) :
    drainStep env (atEnd r phase) = Assembly.yielded ⟨[], r, .ok phase, []⟩ := by
  cases phase with
  | building d =>
      cases hs : d.statement? <;>
        simp [atEnd, hs, drainStep, Assembly.yielded, Phase.last, Phase.trailing,
          Yielded.prepend, drain_of_exhausted]
  | complete s ahead =>
      simp [atEnd, drainStep, Assembly.yielded, Phase.last, Phase.trailing, Yielded.prepend,
        drain_of_exhausted]

theorem drainStep_atError (env : Environment) (r : Reader) (lines : Source) (e : LexError)
    (phase : Phase) :
    drainStep env (atError r lines e phase) =
      Assembly.yielded ⟨phase.due, r, .error (e, lines), []⟩ := by
  cases phase with
  | building d => rfl
  | complete s ahead =>
      simp [atError, drainStep, drain_of_deferred, Yielded.prepend, Assembly.yielded, Phase.due]

section Line

variable {env : Environment} {lines : Source}
  (hnext : ∀ r phase, drainStep env (advance env lines r phase) =
    (assemble env lines r phase).yielded)
include hnext

theorem drainStep_consume (r : Reader) (d : Draft) (content : List Lexeme) :
    drainStep env (consume r lines (advance env lines) d content) =
      ((takeContent r d content).followedBy r lines fun phase =>
        assemble env lines r phase).yielded := by
  fun_induction takeContent r d content with
  | case1 d content e hr => simp [consume, hr, drainStep, Taking.followedBy, Assembly.yielded]
  | case2 d content d' rest joined hr d'' findings ht =>
      simp [consume, hr, ht, drainStep_after, hnext, Taking.followedBy, yielded_prepend]
  | case3 d content d' rest joined hr s findings ht =>
      simp [consume, hr, ht, drainStep_after, hnext, Taking.followedBy, yielded_prepend]
  | case4 d content d' rest joined hr s l ls findings ht ih =>
      rw [Taking.followedBy_prepend, yielded_prepend, ← ih, ← drain_of_cache]
      simp [consume, hr, ht, Step.after, drainStep, Yielded.prepend]

theorem drainStep_atContent (r : Reader) (phase : Phase) (parts : LineParts) {l : Lexeme}
    {ls : List Lexeme} (hcontent : parts.content = l :: ls) :
    drainStep env (atContent r lines (fun r p => advance env lines r p) (l :: ls)
        (phase.addLiminals parts.lead)) =
      ((phase.takeParts r parts).followedBy r lines fun phase =>
        assemble env lines r phase).yielded := by
  unfold Phase.takeParts
  rw [hcontent]
  cases hphase : phase.addLiminals parts.lead with
  | building d => exact drainStep_consume hnext r d (l :: ls)
  | complete s ahead =>
      simp only [Taking.followedBy_prepend, yielded_prepend, ← drainStep_consume hnext,
        ← drain_of_cache]
      rfl

end Line

theorem drainStep_advance (env : Environment) (lines : Source) (r : Reader) (phase : Phase) :
    drainStep env (advance env lines r phase) = (assemble env lines r phase).yielded := by
  induction lines generalizing r phase with
  | nil => exact drainStep_atEnd env r phase
  | cons line lines ih =>
      unfold advance assemble
      dsimp only
      rw [drainStep_after]
      unfold Phase.takeReading
      cases hresult : (r.read env line).result with
      | error e =>
          simp [drainStep_atError, Taking.followedBy, Assembly.yielded, Yielded.prepend]
      | ok parts =>
          simp only [Taking.followedBy_prepend, yielded_prepend]
          congr 1
          cases hcontent : parts.content with
          | nil => simp [ih, Phase.takeParts, hcontent, Taking.followedBy]
          | cons l ls => exact drainStep_atContent ih _ phase parts hcontent

/-- Draining a lexer is assembling its lines. -/
theorem drain_start (env : Environment) (source : Source) (macros : MacroTable)
    (name : Option Path) :
    (start source macros name).drain env =
      (assemble env source (.start name macros) (.building (.ofLiminals []))).yielded := by
  rw [drain_eq_drainStep]
  exact drainStep_advance env source _ _

/-- Running a lexer is assembling its lines. -/
theorem run_start (env : Environment) (source : Source) (macros : MacroTable)
    (name : Option Path) :
    (start source macros name).run env =
      (assemble env source (.start name macros) (.building (.ofLiminals []))).run := by
  simp only [run, drain_start]
  generalize assemble env source (.start name macros) (.building (.ofLiminals [])) = a
  obtain ⟨ss, r, result, es⟩ := a
  cases result <;> rfl

theorem events_run (env : Environment) (source : Source) (macros : MacroTable)
    (name : Option Path) :
    ((start source macros name).run env).events =
      (assemble env source (.start name macros) (.building (.ofLiminals []))).events := by
  rw [run_start]
  rfl

/-- A run that gives a document has taken every line of its source. -/
theorem exists_of_run {env : Environment} {source : Source} {macros : MacroTable}
    {name : Option Path} {d : Document}
    (h : ((start source macros name).run env).result = .ok d) :
    ∃ phase,
      (assemble env source (.start name macros) (.building (.ofLiminals []))).result = .ok phase ∧
      d = ⟨(assemble env source (.start name macros) (.building (.ofLiminals []))).statements ++
          phase.last, phase.trailing,
        (assemble env source (.start name macros)
          (.building (.ofLiminals []))).reader.inclusions⟩ := by
  rw [run_start] at h
  generalize assemble env source (.start name macros) (.building (.ofLiminals [])) = a at h ⊢
  obtain ⟨ss, r, result, es⟩ := a
  cases result with
  | error e => cases h
  | ok phase => exact ⟨phase, rfl, (Except.ok.inj h).symm⟩

theorem exists_run_iff (env : Environment) (source : Source) (macros : MacroTable)
    (name : Option Path) :
    (∃ d, ((start source macros name).run env).result = .ok d) ↔ ∃ phase,
      (assemble env source (.start name macros) (.building (.ofLiminals []))).result =
        .ok phase := by
  constructor
  · rintro ⟨d, hd⟩
    obtain ⟨phase, hphase, _⟩ := exists_of_run hd
    exact ⟨phase, hphase⟩
  · rintro ⟨phase, hphase⟩
    rw [run_start, Assembly.run, hphase]
    exact ⟨_, rfl⟩

end Lexer

end FreeForm
