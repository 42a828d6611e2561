import FreeForm.Lexing
import FreeForm.Proofs.Lexer.Composition
import FreeForm.Proofs.Lexer.LineEnds
import FreeForm.Proofs.Reader.Definition

namespace FreeForm

/-!
# Predefined names

A name that the configuration defines is as good as defined on a line in front of the text. The
configuration takes a definition apart at its first equals sign, and the line is a directive, taken
apart into words; but both drop the white space around the name and around the body, so they bind the
same names to the same lexemes in the same order, or fail alike at the first body that does not scan.
-/

namespace Configuration

theorem isWhiteSpace_of_isIdentifierPart {c : Char} (h : (c.isAlphanum || c == '_') = true) :
    Unicode.isWhiteSpace c = false := by
  rcases Bool.or_eq_true_iff.mp h with h | h
  · have hrange : 48 ≤ c.toNat ∧ c.toNat ≤ 122 := by
      rcases Bool.or_eq_true_iff.mp h with h | h
      · rcases Bool.or_eq_true_iff.mp h with h | h
        · obtain ⟨hlo, hhi⟩ : 65 ≤ c.toNat ∧ c.toNat ≤ 90 := of_decide_eq_true h
          exact ⟨Nat.le_trans (by decide) hlo, Nat.le_trans hhi (by decide)⟩
        · obtain ⟨hlo, hhi⟩ := Bool.and_eq_true_iff.mp h
          have hlo : 97 ≤ c.toNat := of_decide_eq_true hlo
          exact ⟨Nat.le_trans (by decide) hlo, of_decide_eq_true hhi⟩
      · obtain ⟨hlo, hhi⟩ := Bool.and_eq_true_iff.mp h
        have hhi : c.toNat ≤ 57 := of_decide_eq_true hhi
        exact ⟨of_decide_eq_true hlo, Nat.le_trans hhi (by decide)⟩
    simp only [Unicode.isWhiteSpace, Bool.or_eq_false_iff, Bool.and_eq_false_iff,
      beq_eq_false_iff_ne, decide_eq_false_iff_not]
    omega
  · rw [beq_iff_eq.mp h]
    decide

theorem isWhiteSpace_of_isIdentifier {name : Text} (h : isIdentifier name = true) :
    name ≠ [] ∧ ∀ c ∈ name, Unicode.isWhiteSpace c = false := by
  cases name with
  | nil => cases h
  | cons c rest =>
      obtain ⟨hc, hrest⟩ := Bool.and_eq_true_iff.mp h
      refine ⟨List.cons_ne_nil c rest, List.forall_mem_cons.mpr ⟨?_, fun d hd => ?_⟩⟩
      · apply isWhiteSpace_of_isIdentifierPart
        rcases Bool.or_eq_true_iff.mp hc with hc | hc <;> simp [Char.isAlphanum, hc]
      · exact isWhiteSpace_of_isIdentifierPart (List.all_eq_true.mp hrest d hd)

/-- The names of a configuration that can be made are identifiers. -/
theorem isIdentifier_of_ofOptions {o : Options} {c : Configuration} (h : ofOptions o = .ok c) :
    ∀ definition ∈ c.definitions, isIdentifier definition.1 = true := by
  unfold ofOptions at h
  cases hread : o.unread.mapM parseDefinition with
  | error e =>
      rw [hread] at h
      cases h
  | ok read =>
      simp only [hread] at h
      split at h
      · cases h
      · rename_i hall
        cases h
        intro definition hmem
        simpa using List.find?_eq_none.mp hall definition hmem

end Configuration

open FreeForm.Configuration

namespace Reader

variable (env : Environment)

/-- The lines that define some names leave the table that their definitions make. -/
theorem passes_definitions {ds : List (Text × Text)}
    (hnames : ∀ d ∈ ds, isIdentifier d.1.trim = true) {r : Reader} {macros : MacroTable}
    (hactive : r.isSuppressed = false) (h : defineAll r.macros (ds.map trimmed) = .ok macros) :
    ∃ n, Passes env (ds.map fun d => Line.define d.1 d.2) r ((r.withMacros macros).atLine n) := by
  induction ds generalizing r with
  | nil =>
      cases h
      exact ⟨r.lineNumber, .nil r⟩
  | cons d ds ih =>
      obtain ⟨hname, hnames⟩ := List.forall_mem_cons.mp hnames
      obtain ⟨hne, hword⟩ := isWhiteSpace_of_isIdentifier hname
      simp only [List.map_cons, trimmed, defineAll] at h
      cases hdefine : r.macros.define d.1.trim d.2.trim with
      | error e =>
          rw [hdefine] at h
          cases h
      | ok defined =>
          rw [hdefine] at h
          have hread := readsLiminal_define env hactive (Line.isDirective_define d.1 d.2)
            (Line.parse_define d.2 hne hword) hdefine
          obtain ⟨n, hpasses⟩ := ih hnames
            (r := (r.withMacros defined).atLine (r.lineNumber + 1)) hactive h
          exact ⟨n, .cons (Line.getLast?_define d.1 d.2) hread hpasses⟩

end Reader

/-- A definition whose body does not scan is reported at its line, whatever stands behind it. -/
theorem result_assemble_definitions (env : Environment) {ds : List (Text × Text)}
    (hnames : ∀ d ∈ ds, isIdentifier d.1.trim = true) {r : Reader} {e : LexError}
    (hactive : r.isSuppressed = false) (h : defineAll r.macros (ds.map trimmed) = .error e)
    (p : Phase) (lines : Source) :
    ∃ n rest, (assemble env ((ds.map fun d => Line.define d.1 d.2).map .ok ++ lines) r p).result =
      .error (e.atLine n, rest) := by
  induction ds generalizing r p with
  | nil => cases h
  | cons d ds ih =>
      obtain ⟨hname, hnames⟩ := List.forall_mem_cons.mp hnames
      obtain ⟨hne, hword⟩ := isWhiteSpace_of_isIdentifier hname
      have hline := Line.isDirective_define d.1 d.2
      have hparse := Line.parse_define d.2 hne hword
      simp only [List.map_cons, List.cons_append, assemble, Phase.takeReading]
      simp only [List.map_cons, trimmed, defineAll] at h
      cases hdefine : r.macros.define d.1.trim d.2.trim with
      | error f =>
          rw [hdefine] at h
          cases h
          rw [Reader.result_read_define_error env hactive hline hparse hdefine]
          exact ⟨_, _, rfl⟩
      | ok defined =>
          rw [hdefine] at h
          obtain ⟨lead, events, hread⟩ :=
            Reader.readsLiminal_define env hactive hline hparse hdefine
          rw [hread]
          exact ih hnames (r := (r.withMacros defined).atLine (r.lineNumber + 1)) hactive h
            (p.addLiminals lead)

namespace Run

/-- What a run comes to: the tokens of its statements, the files included and the macros left behind,
or the error but for its line. -/
def outcome (r : Run) : Except LexError (List (List Token) × List (Path × Document) × MacroTable) :=
  match r.result with
  | .error e => .error (e.atLine 0)
  | .ok d => .ok (d.statements.map Statement.bare, d.inclusions, r.macros)

end Run

theorem Assembly.Alike.outcome {a b : Assembly} (h : a.Alike Reader.SameButLine b) :
    a.run.outcome = b.run.outcome := by
  obtain ⟨ss, r, result, es⟩ := a
  obtain ⟨ss', r', result', es'⟩ := b
  obtain ⟨hstatements, hresult, hreader⟩ := h
  have hmacros : r.macros = r'.macros := (congrArg Reader.macros hreader).symm
  have hinclusions : r.inclusions = r'.inclusions := (congrArg Reader.inclusions hreader).symm
  cases hresult with
  | error he => exact congrArg Except.error he
  | ok hphase =>
      have hbare : ss.map Statement.bare = ss'.map Statement.bare := hstatements
      simp only [Run.outcome, Assembly.run, Except.mapError, Except.map, List.map_append, hbare,
        hphase.last, hmacros, hinclusions]

theorem Source.ofText_definitions {ds : List (Text × Text)}
    (hfeed : ∀ d ∈ ds, '\n' ∉ d.1 ∧ '\n' ∉ d.2) (t : Text) :
    ofText (ds.flatMap (fun d => Line.define d.1 d.2) ++ t) =
      (ds.map fun d => Line.define d.1 d.2).map .ok ++ ofText t := by
  have hlines : ∀ line ∈ ds.map (fun d => "#define ".toList ++ (d.1 ++ ' ' :: d.2)),
      '\n' ∉ line := by
    intro line hline
    obtain ⟨d, hd, rfl⟩ := List.mem_map.mp hline
    obtain ⟨hname, hbody⟩ := hfeed d hd
    simp [hname, hbody]
  have hdefined : (ds.map fun d => "#define ".toList ++ (d.1 ++ ' ' :: d.2)).map (· ++ ['\n']) =
      ds.map fun d => Line.define d.1 d.2 := List.map_map
  have hcut := ofText_lines_append hlines t
  rw [List.flatMap_map, hdefined] at hcut
  exact hcut

/-- Predefining names is writing their definitions on lines in front of the text. Around names and
bodies there can be any white space that does not end the line; no name itself has a line feed in
it. -/
theorem outcome_predefined (files : Files) {o : Options} {c : Configuration}
    (hc : ofOptions o = .ok c) {ds : List (Text × Text)} (hds : ds.map trimmed = c.definitions)
    (hfeed : ∀ d ∈ ds, '\n' ∉ d.1 ∧ '\n' ∉ d.2) (t : Text) :
    (lexText files c t).outcome =
      (lexText files { c with definitions := [] }
        (ds.flatMap (fun d => Line.define d.1 d.2) ++ t)).outcome := by
  have hnames : ∀ d ∈ ds, isIdentifier d.1.trim = true := fun d hd =>
    isIdentifier_of_ofOptions hc (trimmed d) (hds ▸ List.mem_map_of_mem hd)
  have hwritten : lexText files { c with definitions := [] }
      (ds.flatMap (fun d => Line.define d.1 d.2) ++ t) =
      (assemble (.ofConfiguration files c) ((ds.map fun d => Line.define d.1 d.2).map .ok ++
        Source.ofText t) (.start none .empty) (.building (.ofLiminals []))).run := by
    rw [← Source.ofText_definitions hfeed, ← Lexer.run_start]
    rfl
  rw [hwritten]
  unfold lexText lexSource Lexer.ofSource
  cases hmacros : c.macroTable with
  | error e =>
      rw [macroTable, ← hds] at hmacros
      obtain ⟨n, rest, hresult⟩ := result_assemble_definitions (.ofConfiguration files c) hnames
        (r := .start none .empty) rfl hmacros (.building (.ofLiminals [])) (.ofText t)
      simp only [Run.outcome, Run.failed, Assembly.run, hresult, Except.map, Except.mapError,
        LexError.atLine_atLine]
  | ok macros =>
      rw [macroTable, ← hds] at hmacros
      obtain ⟨n, hpasses⟩ := Reader.passes_definitions (.ofConfiguration files c) hnames
        (r := .start none .empty) rfl hmacros
      obtain ⟨q, events, _, hq, hassemble⟩ := hpasses.exists_phase Phase.atLineEnd_start
      have hbehind := assemble_alike (Reader.readsAlike_sameButLine (.ofConfiguration files c))
        (.ofText t) ((Reader.SameButLine.refl (.start none macros)).atLine n) hq
      calc
        _ = (assemble (.ofConfiguration files c) (.ofText t) (.start none macros)
              (.building (.ofLiminals []))).run.outcome := congrArg Run.outcome (Lexer.run_start ..)
        _ = _ := by
          have hnothing : ([] : List Statement).map Statement.bare = [].map Statement.bare := rfl
          rw [hassemble]
          exact (hbehind.prepend hnothing events []).outcome.symm

/-- A name is defined twice, with white space around it and with marks of all kinds in its body. -/
theorem outcome_predefined_of_redefined :
    ∃ c, ofOptions ⟨none, some 2, [], [" A = a=b !c".toList, "B".toList,
        "A\u00a0= 'x;!' & /= #\u00a0".toList]⟩ = .ok c ∧
      (lexText .none c "y = A B; A\n".toList).result.toOption.map Document.values =
        some [["y".toList, "=".toList, "'x;!'".toList, "/=".toList],
          ["'x;!'".toList, "/=".toList]] ∧
      (lexText .none c "y = A B; A\n".toList).outcome =
        (lexText .none { c with definitions := [] } ([(" A ".toList, " a=b !c".toList),
          ("B".toList, []), ("A\u00a0".toList, " 'x;!' & /= #\u00a0".toList)].flatMap
            (fun d => Line.define d.1 d.2) ++ "y = A B; A\n".toList)).outcome := by
  have hc : ofOptions ⟨none, some 2, [], [" A = a=b !c".toList, "B".toList,
      "A\u00a0= 'x;!' & /= #\u00a0".toList]⟩ =
        .ok ⟨['.'], 2, [("A".toList, "a=b !c".toList), ("B".toList, []),
          ("A".toList, "'x;!' & /= #".toList)]⟩ := by
    decide +kernel
  exact ⟨_, hc, by decide +kernel,
    outcome_predefined .none hc (by decide +kernel) (by decide +kernel) "y = A B; A\n".toList⟩

end FreeForm
