import FreeForm.Proofs.Reader.Conditional

namespace FreeForm

/-!
# The names that lines use and change

A reader looks names up in its macro table for two reasons: a conditional tests a name, and every
semantic lexeme may be an invocation. It changes what a name is bound to when it carries out a
definition, or takes one back. Beside a reader with another table, one that binds the names tested
alike, it reads the same, and each name bound alike in both tables stays so.
-/

theorem Source.includedNames_ok_cons {line : Text} {lines : Source}
    (h : includedNames (.ok line :: lines) = []) :
    Line.includedName? line = none ∧ lines.includedNames = [] := by
  cases hline : Line.includedName? line with
  | none =>
      simp only [includedNames, readable, List.filterMap_cons_none hline] at h
      exact ⟨rfl, h⟩
  | some name =>
      simp only [includedNames, readable, List.filterMap_cons_some hline] at h
      cases h

/-- The name that a directive binds or unbinds. -/
def Directive.changedName? : Directive → Option Text
  | .define name _ | .undef name => some name
  | _ => none

/-- The name whose binding a directive asks for. -/
def Directive.testedName? : Directive → Option Text
  | .ifdef name | .ifndef name => some name
  | _ => none

/-- The directive of a line. -/
def Line.directive? (line : Text) : Option Directive :=
  if isDirective line then (Directive.parse (directiveText line)).toOption else none

/-- The name that a line tests. -/
def Line.testedNames (line : Text) : List Text :=
  ((directive? line).bind Directive.testedName?).toList

/-- The name that a directive changes, which is none while source is skipped. -/
def Preprocessor.changedNames (p : Preprocessor) (d : Option Directive) : List Text :=
  match p.suppressed with
  | true => []
  | false => (d.bind Directive.changedName?).toList

namespace Survey

/-- The names that a line binds or unbinds. -/
def changedNames (s : Survey) (line : Text) : List Text :=
  s.preprocessor.changedNames (Line.directive? line)

/-- The names that a line tests, and those that may be invocations on it. -/
def usedNames (s : Survey) (line : Text) : List Text :=
  Line.testedNames line ++ ((s.lexemes line).filter (·.isSemantic)).map Lexeme.text

end Survey

/-- The names told of the lines that a reader reads, up to one that it cannot. -/
def Reader.namesOf (names : Survey → Text → List Text) (env : Environment) :
    Source → Reader → List Text
  | [], _ => []
  | .error _ :: _, _ => []
  | .ok line :: lines, r =>
      match (r.read env (.ok line)).result with
      | .error _ => []
      | .ok _ => names r.survey line ++ namesOf names env lines (r.read env (.ok line)).reader

namespace MacroTable

/-- Two tables bind some names alike. -/
def AgreeOn (names : List Text) (t m : MacroTable) : Prop :=
  ∀ name ∈ names, t.get? name = m.get? name

theorem AgreeOn.mono {names more : List Text} {t m : MacroTable} (h : AgreeOn more t m)
    (hsub : names ⊆ more) : AgreeOn names t m :=
  fun name hname => h name (hsub hname)

theorem AgreeOn.contains {names : List Text} {t m : MacroTable} (h : AgreeOn names t m)
    {name : Text} (hname : name ∈ names) : t.contains name = m.contains name := by
  rw [MacroTable.contains, MacroTable.contains, h name hname]

/-- A table `m` becomes `v` beside a table `t` that becomes `u`: what they bound alike they bind
alike, and all but the changed names are bound as before. -/
structure Moves (changed : List Text) (t m u v : MacroTable) : Prop where
  follows : ∀ name, t.get? name = m.get? name → u.get? name = v.get? name
  keeps : ∀ name, name ∉ changed → v.get? name = m.get? name

namespace Moves

variable {changed : List Text} {t m u v : MacroTable}

theorem refl (changed : List Text) (t m : MacroTable) : Moves changed t m t m :=
  ⟨fun _ h => h, fun _ _ => rfl⟩

theorem mono {more : List Text} (h : Moves changed t m u v) (hsub : changed ⊆ more) :
    Moves more t m u v :=
  ⟨h.follows, fun name hname => h.keeps name fun hin => hname (hsub hin)⟩

theorem trans {later : List Text} {u' v' : MacroTable} (h : Moves changed t m u v)
    (h' : Moves later u v u' v') : Moves (changed ++ later) t m u' v' where
  follows name hname := h'.follows name (h.follows name hname)
  keeps name hname := by
    rw [List.mem_append, not_or] at hname
    exact (h'.keeps name hname.2).trans (h.keeps name hname.1)

theorem agreeOn {names : List Text} (h : Moves changed t m u v) (hnames : AgreeOn names t m) :
    AgreeOn names u v :=
  fun name hname => h.follows name (hnames name hname)

/-- Whatever happens to the other names, they are bound as before. -/
theorem agreeOn_of_disjoint {names : List Text} {w : MacroTable} (h : Moves changed t m u v)
    (hnames : AgreeOn names w m) (hapart : ∀ name ∈ changed, name ∉ names) :
    AgreeOn names w v := by
  intro name hname
  rw [hnames name hname, h.keeps name fun hin => hapart name hin hname]

end Moves

end MacroTable

namespace Preprocessor

open MacroTable (AgreeOn Moves)

/-- The outcomes of one directive under two tables. -/
inductive AppliedBeside (changed : List Text) (t m : MacroTable) :
    Except LexError (Outcome × Preprocessor) → Except LexError (Outcome × Preprocessor) → Prop
  | error (e : LexError) : AppliedBeside changed t m (.error e) (.error e)
  | ok (outcome outcome' : Outcome) (suppressed : Bool) {u v : MacroTable}
      (moves : Moves changed t m u v) :
      AppliedBeside changed t m (.ok (outcome, ⟨u, suppressed⟩))
        (.ok (outcome', ⟨v, suppressed⟩))

theorem moves_insert (t m : MacroTable) (name : Text) (body : List Lexeme) :
    Moves [name] t m (t.insert name body) (m.insert name body) where
  follows other h := by
    rw [MacroTable.get?_insert, MacroTable.get?_insert, h]
  keeps other h := by
    rw [MacroTable.get?_insert, if_neg (by simpa using h)]

/-- A name that is unbound is unbound whether or not it was bound. -/
theorem moves_erase (t m : MacroTable) (name : Text) :
    Moves [name] t m (if t.contains name then t.erase name else t)
      (if m.contains name then m.erase name else m) := by
  have herase : ∀ (table : MacroTable) (other : Text),
      (if table.contains name then table.erase name else table).get? other =
        if other = name then none else table.get? other := by
    intro table other
    split
    · exact MacroTable.get?_erase table name other
    · rename_i hfree
      split
      · rename_i hother
        subst hother
        simpa [MacroTable.contains] using hfree
      · rfl
  constructor
  · intro other h
    rw [herase, herase, h]
  · intro other h
    rw [herase, if_neg (by simpa using h)]

theorem apply_beside (p : Preprocessor) {m : MacroTable} {d : Directive}
    (hagree : AgreeOn d.testedName?.toList p.macros m) :
    AppliedBeside (p.changedNames (some d)) p.macros m (p.apply d)
      (apply { p with macros := m } d) := by
  obtain ⟨t, suppressed⟩ := p
  cases hskips : skips ⟨t, suppressed⟩ d with
  | true =>
      have hskips' : skips ⟨m, suppressed⟩ d = true := hskips
      simp only [apply, hskips, hskips', if_true]
      exact .ok _ _ _ (.refl _ t m)
  | false =>
      have hskips' : skips ⟨m, suppressed⟩ d = false := hskips
      simp only [apply, hskips, hskips', Bool.false_eq_true, if_false]
      cases d with
      | define name body =>
          obtain rfl : suppressed = false := by
            simpa [skips, Directive.isConditional] using hskips
          dsimp only [MacroTable.define]
          cases MacroTable.scanBody body with
          | error e => exact .error e
          | ok lexemes => exact .ok _ _ _ (moves_insert t m name lexemes)
      | undef name =>
          obtain rfl : suppressed = false := by
            simpa [skips, Directive.isConditional] using hskips
          have hmoves := moves_erase t m name
          dsimp only
          cases hbound : t.contains name <;> cases hbound' : m.contains name <;>
            rw [hbound, hbound'] at hmoves <;> exact .ok _ _ _ hmoves
      | ifdef name | ifndef name =>
          have hsame : t.contains name = m.contains name :=
            hagree.contains (by simp [Directive.testedName?])
          dsimp only
          rw [hsame]
          exact .ok _ _ _ (.refl _ t m)
      | otherwise | endif | includeFile | unsupported => exact .ok _ _ _ (.refl _ t m)

end Preprocessor

open MacroTable (AgreeOn Moves)

/-- A reading beside one with another table: the result is the same, and so is the reader left, but
for its table. -/
structure Reading.Beside {α : Type} (changed : List Text) (t m : MacroTable) (x y : Reading α) :
    Prop where
  result : y.result = x.result
  reader : y.reader = x.reader.withMacros y.reader.macros
  moves : Moves changed t m x.reader.macros y.reader.macros

namespace Reader

@[simp] theorem macros_withMacros (r : Reader) (m : MacroTable) : (r.withMacros m).macros = m := rfl

/-- A result that is the same, left by a reader that is not touched. -/
theorem beside_same {α : Type} (changed : List Text) (r : Reader) (m : MacroTable)
    (result : Except LexError α) (events events' : List Event) :
    Reading.Beside changed r.macros m ⟨result, r, events⟩ ⟨result, r.withMacros m, events'⟩ :=
  ⟨rfl, rfl, .refl _ _ _⟩

theorem settle_plain_result (env : Environment) (r : Reader) {p p' : Preprocessor} {d : Directive}
    {outcome : Outcome} (h : p.apply d = .ok (outcome, p'))
    (hd : ∀ path system, d ≠ .includeFile path system) :
    (settle env r outcome).result = .ok () := by
  rcases Preprocessor.outcome_of_apply h hd with rfl | ⟨finding, rfl, _⟩ <;> rfl

theorem apply_beside (env : Environment) (r : Reader) {m : MacroTable} {d : Directive}
    (hd : ∀ path system, d ≠ .includeFile path system)
    (hagree : AgreeOn d.testedName?.toList r.macros m) :
    Reading.Beside (r.preprocessor.changedNames (some d)) r.macros m (r.apply env d)
      ((r.withMacros m).apply env d) := by
  have happlied : Preprocessor.AppliedBeside _ r.macros m (r.preprocessor.apply d)
      ((r.withMacros m).preprocessor.apply d) := r.preprocessor.apply_beside hagree
  unfold apply
  generalize hx : r.preprocessor.apply d = x at happlied ⊢
  generalize hy : (r.withMacros m).preprocessor.apply d = y at happlied ⊢
  cases happlied with
  | error e => exact beside_same _ r m _ _ _
  | ok outcome outcome' suppressed moves =>
      rename_i u v
      have hleft := settle_plain env r hx hd
      have hright := settle_plain env (r.withMacros m) hy hd
      have hresult := settle_plain_result env
        { r with preprocessor := ⟨u, suppressed⟩ } hx hd
      have hresult' := settle_plain_result env
        { r.withMacros m with preprocessor := ⟨v, suppressed⟩ } hy hd
      dsimp only
      refine ⟨hresult'.trans hresult.symm, ?_, ?_⟩
      · rw [hleft.reader, hright.reader]
        rfl
      · rw [hleft.reader, hright.reader]
        exact moves

theorem direct_beside (env : Environment) (r : Reader) {m : MacroTable} {text : Text}
    (htext : ∀ path system, Directive.parse text ≠ .ok (.includeFile path system))
    (hagree : AgreeOn ((Directive.parse text).toOption.bind Directive.testedName?).toList
      r.macros m) :
    Reading.Beside (r.preprocessor.changedNames (Directive.parse text).toOption) r.macros m
      (r.direct env text) ((r.withMacros m).direct env text) := by
  have hsuppressed : (r.withMacros m).isSuppressed = r.isSuppressed := rfl
  unfold direct
  rw [hsuppressed]
  split
  · exact beside_same _ r m _ _ _
  · cases hparse : Directive.parse text with
    | error e => exact beside_same _ r m _ _ _
    | ok d =>
        rw [hparse] at hagree
        refine apply_beside env r (fun path system heq => ?_) hagree
        exact htext path system (by rw [hparse, heq])

theorem readText_beside (env : Environment) (r : Reader) {m : MacroTable} {line : Text}
    (hline : Line.includedName? line = none)
    (hagree : AgreeOn (Line.testedNames line) r.macros m) :
    Reading.Beside (r.survey.changedNames line) r.macros m (r.readText env line)
      ((r.withMacros m).readText env line) := by
  cases hdirective : Line.isDirective line with
  | true =>
      obtain ⟨lexemes, hscan, htext, _⟩ := r.scanner.scan_of_isDirective hdirective
      have hread : ∀ x : Reader, x.scanner = r.scanner → x.readText env line =
          ⟨(x.direct env (Line.directiveText line)).result.map fun _ => .ofLexemes lexemes,
            (x.direct env (Line.directiveText line)).reader,
            (x.direct env (Line.directiveText line)).events⟩ := by
        intro x hx
        obtain ⟨_, _, scanner, _, _⟩ := x
        obtain rfl : scanner = r.scanner := hx
        simp [readText, hdirective, hscan, htext]
      have hnamed : Line.directive? line =
          (Directive.parse (Line.directiveText line)).toOption := by
        simp [Line.directive?, hdirective]
      rw [Line.testedNames, hnamed] at hagree
      have hdirect :=
        direct_beside env r (parse_ne_of_includedName? hline hdirective) hagree
      rw [hread r rfl, hread (r.withMacros m) rfl, Survey.changedNames, hnamed]
      refine ⟨?_, hdirect.reader, hdirect.moves⟩
      dsimp only
      rw [hdirect.result]
  | false =>
      cases hs : r.isSuppressed with
      | true =>
          have hs' : (r.withMacros m).isSuppressed = true := hs
          rw [readText_of_skipped hs hdirective, readText_of_skipped hs' hdirective]
          exact beside_same _ r m _ _ _
      | false =>
          have hs' : (r.withMacros m).isSuppressed = false := hs
          rw [readText_of_scan env hs hdirective, readText_of_scan env hs' hdirective]
          have hscanner : (r.withMacros m).scanner = r.scanner := rfl
          rw [hscanner]
          cases r.scanner.scan line with
          | mk result scanner =>
              cases result with
              | error e => exact beside_same _ r m _ _ _
              | ok lexemes => exact ⟨rfl, rfl, .refl _ _ _⟩

/-- A line is read alike under two tables that bind the names it tests alike. -/
theorem read_beside (env : Environment) (r : Reader) {m : MacroTable} {line : Text}
    (hline : Line.includedName? line = none)
    (hagree : AgreeOn (Line.testedNames line) r.macros m) :
    Reading.Beside (r.survey.changedNames line) r.macros m (r.read env (.ok line))
      ((r.withMacros m).read env (.ok line)) :=
  readText_beside env { r with lineNumber := r.lineNumber + 1 } hline hagree

theorem macros_direct_of_error {env : Environment} {r : Reader} {text : Text} {e : LexError}
    (htext : ∀ path system, Directive.parse text ≠ .ok (.includeFile path system))
    (h : (r.direct env text).result = .error e) : (r.direct env text).reader.macros = r.macros := by
  unfold direct at h ⊢
  split at h
  · cases h
  · rename_i hcarried
    rw [if_neg hcarried]
    cases hparse : Directive.parse text with
    | error e => rfl
    | ok d =>
        simp only [hparse] at h ⊢
        unfold apply at h ⊢
        cases happly : r.preprocessor.apply d with
        | error e => rfl
        | ok result =>
            have hd : ∀ path system, d ≠ .includeFile path system := fun path system heq =>
              htext path system (by rw [hparse, heq])
            have hsettled := settle_plain_result env
              { r with preprocessor := result.2 } happly hd
            rw [happly] at h
            dsimp only at h
            rw [hsettled] at h
            cases h

/-- A line that is at fault changes no macro. -/
theorem macros_read_of_error {env : Environment} {r : Reader} {line : Text} {e : LexError}
    (hline : Line.includedName? line = none) (h : (r.read env (.ok line)).result = .error e) :
    (r.read env (.ok line)).reader.macros = r.macros := by
  have hread : ∀ x : Reader, (x.readText env line).result = .error e →
      (x.readText env line).reader.macros = x.macros := by
    intro x hx
    have hcases := readsTo_readText env x line
    generalize x.readText env line = reading at hx hcases ⊢
    cases hcases with
    | directive hdirective =>
        cases hdirect : (x.direct env (Line.directiveText line)).result with
        | error e =>
            exact macros_direct_of_error (parse_ne_of_includedName? hline hdirective) hdirect
        | ok u =>
            rw [hdirect] at hx
            cases hx
    | skipped | unscanned | scanned => rfl
  exact hread { r with lineNumber := r.lineNumber + 1 } h

/-- A line that is at fault tests no name. -/
theorem testedNames_of_error {env : Environment} {r : Reader} {line : Text} {e : LexError}
    (h : (r.read env (.ok line)).result = .error e) : Line.testedNames line = [] := by
  by_contra hne
  obtain ⟨name, hname⟩ := List.exists_mem_of_ne_nil _ hne
  obtain ⟨d, hnamed, htested⟩ : ∃ d, Line.directive? line = some d ∧ d.testedName? = some name := by
    simpa [Line.testedNames, Option.bind_eq_some_iff] using hname
  obtain ⟨hdirective, hparse⟩ : Line.isDirective line = true ∧
      Directive.parse (Line.directiveText line) = .ok d := by
    unfold Line.directive? at hnamed
    split at hnamed
    · rename_i hdirective
      cases hparse : Directive.parse (Line.directiveText line) <;> rw [hparse] at hnamed <;>
        cases hnamed
      exact ⟨hdirective, rfl⟩
    · cases hnamed
  have hd : d.isConditional = true := by
    cases d with
    | ifdef | ifndef => rfl
    | define | undef | otherwise | endif | includeFile | unsupported => cases htested
  obtain ⟨suppressed, happly⟩ := r.preprocessor.apply_of_isConditional hd
  obtain ⟨_, _, hread⟩ := readsLiminal_of_conditional env r hdirective hparse hd happly
  rw [hread] at h
  cases h

end Reader

end FreeForm
