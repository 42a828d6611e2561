import FreeForm.Lexing
import FreeForm.Proofs.Lexer.Position

namespace FreeForm

/-!
# Token values

What a lexer is asked for most is the values of the tokens alone. A line adds tokens behind those
that a statement has already, and only joining a divided token can fail.
-/

open Lexeme

theorem Statement.values_eq (s : Statement) : s.values = s.bare.map Token.value := by
  rw [bare, List.map_map]
  rfl

/-- The values of the tokens of a draft in the order of the source. -/
def Draft.values (d : Draft) : List Text :=
  d.bare.map Token.value

theorem Draft.values_addToken (d : Draft) (t : Token) :
    (d.addToken t).values = d.values ++ [t.value] := by
  rw [values, bare_addToken, List.map_append]
  rfl

theorem Draft.values_of_tokens {d : Draft} {newest : Token} {older : List Token}
    (h : d.tokens = newest :: older) :
    d.values = older.reverse.map Token.value ++ [newest.value] := by
  rw [values, bare_of_tokens h, List.map_append, List.map_map]
  rfl

theorem Draft.values_statement? (d : Draft) :
    d.statement?.toList.map Statement.values = if d.tokens = [] then [] else [d.values] := by
  cases hs : d.statement? with
  | none =>
      have hd := statement?_eq_none_iff_tokens.mp hs
      simp [hd]
  | some s =>
      have hd : d.tokens ≠ [] := by
        intro hnil
        rw [statement?_eq_none_iff_tokens.mpr hnil] at hs
        cases hs
      have hvalues : s.values = d.values := by
        rw [s.values_eq, bare_of_statement? hs]
        rfl
      simp [hd, hvalues]

theorem map_append_eq_ok {ε α : Type} {x : Except ε (List α)} {front l : List α} :
    x.map (front ++ ·) = .ok (front ++ l) ↔ x = .ok l := by
  cases x <;> simp [Except.map]

namespace Taking

/-- The token values of the statements of a line, with the one that it leaves unfinished. -/
def values (t : Taking) : Except LexError (List (List Text)) :=
  t.result.map fun phase => (t.statements ++ phase.last).map Statement.values

theorem values_prepend (ss : List Statement) (es : List Event) (t : Taking) :
    (t.prepend ss es).values = t.values.map (ss.map Statement.values ++ ·) := by
  obtain ⟨ts, result, fs⟩ := t
  cases result with
  | error e => rfl
  | ok phase => simp [values, prepend, Except.map]

theorem Alike.values_eq {t t' : Taking} (h : t.Alike t') {vs : List (List Text)}
    (ht : t.values = .ok vs) : t'.values = .ok vs := by
  obtain ⟨ss, result, es⟩ := t
  obtain ⟨ss', result', es'⟩ := t'
  obtain ⟨hstatements, hresult⟩ := h
  cases hresult with
  | error he => cases ht
  | @ok phase phase' hphase =>
      have hbare : (ss ++ phase.last).map Statement.bare =
          (ss' ++ phase'.last).map Statement.bare := by
        rw [List.map_append, List.map_append, hphase.last]
        exact congrArg (· ++ _) hstatements
      have hvalues : ∀ ts : List Statement,
          ts.map Statement.values = (ts.map Statement.bare).map (List.map Token.value) := by
        intro ts
        rw [List.map_map]
        exact List.map_congr_left fun s _ => s.values_eq
      rw [← ht]
      simp only [values, Except.map, hvalues, hbare]

end Taking

namespace Lexer

/-- From no tokens a line is taken without an error. -/
theorem exists_values_takeContent (r : Reader) {d : Draft} (hd : d.tokens = [])
    (content : List Lexeme) : ∃ vs, (takeContent r d content).values = .ok vs := by
  fun_induction takeContent r d content with
  | case1 d content e hresume => simp [Draft.resume, hd] at hresume
  | case2 => exact ⟨_, rfl⟩
  | case3 => exact ⟨_, rfl⟩
  | case4 d content next rest joined hresume s l ls findings htake ih =>
      obtain ⟨vs, hvs⟩ := ih rfl
      rw [Taking.values_prepend, hvs]
      exact ⟨_, rfl⟩

/-- The tokens that a statement has stay in front of those it takes on. -/
theorem exists_values_takeOn (r : Reader) {d : Draft} (hd : d.tokens ≠ []) (ls : List Lexeme) :
    ∃ more rest, (takeOn r d ls).values = .ok ((d.values ++ more) :: rest) := by
  obtain ⟨more, hmore⟩ : ∃ more, (d.take r.macros ls).1.bare = d.bare ++ more := by
    obtain ⟨front, back, _, _, hbare, _⟩ := d.take_cases r.macros ls
    exact ⟨_, hbare⟩
  refine ⟨more.map Token.value, ?_⟩
  have hvalues : ∀ s : Statement, s.bare = d.bare ++ more →
      s.values = d.values ++ more.map Token.value := by
    intro s hs
    rw [s.values_eq, hs, List.map_append]
    rfl
  unfold takeOn
  cases htake : d.take r.macros ls with
  | mk progress findings =>
      rw [htake] at hmore
      cases progress with
      | «open» d' =>
          have hbare : d'.bare = d.bare ++ more := hmore
          have hne : d'.tokens ≠ [] := by
            rw [ne_eq, ← Draft.bare_eq_nil, hbare, List.append_eq_nil_iff, Draft.bare_eq_nil]
            exact fun hnil => hd hnil.1
          obtain ⟨s, hs, hcompleted⟩ := Draft.exists_statement? hne
          have hfirst := hvalues s (hcompleted.trans hbare)
          exact ⟨[], by simp [Taking.values, Except.map, Phase.last, hs, hfirst]⟩
      | closed s rest =>
          have hfirst := hvalues s hmore
          cases rest with
          | nil => exact ⟨[], by simp [Taking.values, Except.map, Phase.last, hfirst]⟩
          | cons l ls' =>
              have hfresh : (Draft.ofLiminals []).tokens = [] := rfl
              obtain ⟨vs, hvs⟩ := exists_values_takeContent r hfresh (l :: ls')
              exact ⟨vs, by simp [Taking.values_prepend, hvs, Except.map, hfirst]⟩

end Lexer

namespace Assembly

/-- The token values of the statements of some lines. -/
def values (a : Assembly) : Except LexError (List (List Text)) :=
  match a.result with
  | .error (e, _) => .error e
  | .ok phase => .ok ((a.statements ++ phase.last).map Statement.values)

theorem values_prepend (ss : List Statement) (es : List Event) (a : Assembly) :
    (a.prepend ss es).values = a.values.map (ss.map Statement.values ++ ·) := by
  obtain ⟨ts, r, result, fs⟩ := a
  cases result with
  | error e => rfl
  | ok phase => simp [values, prepend, Except.map]

end Assembly

theorem values_assemble_line (env : Environment) (r : Reader) (phase : Phase) (line : SourceLine) :
    (assemble env [line] r phase).values = (phase.takeReading (r.read env line)).values := by
  rw [assemble]
  generalize phase.takeReading (r.read env line) = t
  obtain ⟨ss, result, es⟩ := t
  cases result with
  | error e => rfl
  | ok phase => simp [Taking.followedBy, assemble, Assembly.values, Assembly.prepend, Taking.values,
      Except.map]

theorem tokenize_eq_values (files : Files) (t : Text) :
    tokenize files t = (assemble (.ofConfiguration files .standard) (.ofText t)
      (.start none .empty) (.building (.ofLiminals []))).values := by
  have hrun : lexText files .standard t = (Lexer.start (.ofText t) .empty none).run
      (.ofConfiguration files .standard) := rfl
  rw [tokenize, hrun]
  simp only [Lexer.run, Lexer.drain_start]
  generalize assemble (.ofConfiguration files .standard) (.ofText t) (.start none .empty)
    (.building (.ofLiminals [])) = a
  obtain ⟨ss, r, result, es⟩ := a
  cases result with
  | error e => rfl
  | ok phase => rfl

end FreeForm
