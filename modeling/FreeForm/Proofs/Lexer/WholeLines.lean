import FreeForm.Proofs.Lexer.Composition
import FreeForm.Proofs.Lexer.RoundTrip

namespace FreeForm

/-!
# Whole lines in front of a text

A text that lexes can be cut off behind any of its lines. Wherever the cut falls, in a statement, in a
string or in a skipped region, the lines in front of it lex as well, and to the same statements: only
the last of them may still have had something to come, for a statement is complete with all its
liminal text as soon as the next one has begun.
-/

/-- Where a list ends with the separator, so does each of its pieces. -/
theorem getLast?_of_mem_splitAfter {α : Type} [DecidableEq α] {separator : α} {l piece : List α}
    (hl : l.getLast? = some separator) (h : piece ∈ splitAfter separator l) :
    piece.getLast? = some separator := by
  fun_induction splitAfter separator l generalizing piece with
  | case1 => cases h
  | case2 rest ih =>
      rcases List.mem_cons.mp h with rfl | h
      · rfl
      · cases rest with
        | nil => cases h
        | cons b rest => exact ih (by simpa using hl) h
  | case3 a rest hne hnil _ =>
      have hrest : rest = [] := by simpa [hnil] using (splitAfter_flatten separator rest).symm
      rw [hrest] at hl
      exact absurd (Option.some.inj hl) hne
  | case4 a rest hne first others hpieces ih =>
      cases rest with
      | nil => cases hpieces
      | cons b rest =>
          have hrest : (b :: rest).getLast? = some separator := by simpa using hl
          rw [hpieces] at ih
          rcases List.mem_cons.mp h with rfl | h
          · have hfirst := ih hrest List.mem_cons_self
            cases first with
            | nil => cases hfirst
            | cons c first => simpa using hfirst
          · exact ih hrest (List.mem_cons_of_mem _ h)

/-- A text that is empty or ends with a line feed is made of whole lines. -/
theorem Text.getLast?_of_mem_lines {t : Text} (ht : t = [] ∨ t.getLast? = some '\n') {line : Text}
    (h : line ∈ t.lines) : line.getLast? = some '\n' := by
  rcases ht with rfl | ht
  · cases h
  · exact getLast?_of_mem_splitAfter ht h

/-- The end of a source completes one statement at most. -/
theorem Phase.dropLast_append_last (ss : List Statement) (phase : Phase) :
    (ss ++ phase.last).dropLast <+: ss := by
  cases phase with
  | building d =>
      cases hs : d.statement? with
      | none => simpa [last, hs] using ss.dropLast_prefix
      | some s => simp [last, hs]
  | complete s ahead => simp [last]

theorem Assembly.prefix_prepend (ss : List Statement) (es : List Event) (a : Assembly) :
    ss <+: (a.prepend ss es).statements :=
  List.prefix_append ss a.statements

namespace Lexer

/-- The lines in front of others lex if all of them do, and only the last statement of theirs may
change. -/
theorem exists_run_of_append {env : Environment} {lines more : Source} {macros : MacroTable}
    {name : Option Path} {d : Document}
    (h : ((start (lines ++ more) macros name).run env).result = .ok d) :
    ∃ e, ((start lines macros name).run env).result = .ok e ∧
      e.statements.dropLast <+: d.statements := by
  obtain ⟨phase, hresult, hd⟩ := exists_of_run h
  rw [assemble_append] at hresult hd
  rw [run_start]
  generalize assemble env lines (.start name macros) (.building (.ofLiminals [])) = a at *
  obtain ⟨ss, r, result, es⟩ := a
  cases result with
  | error failed => cases hresult
  | ok border =>
      refine ⟨_, rfl, (border.dropLast_append_last ss).trans ?_⟩
      rw [hd]
      exact (Assembly.prefix_prepend ss es _).trans (List.prefix_append _ _)

end Lexer

/-- What a text lexes to is settled, but for the last statement, by the whole lines in front. -/
theorem statements_prefix_of_lines {files : Files} {c : Configuration} {p q : Text} {d : Document}
    (hp : p = [] ∨ p.getLast? = some '\n') (h : (lexText files c (p ++ q)).result = .ok d) :
    ∃ e, (lexText files c p).result = .ok e ∧ e.statements.dropLast <+: d.statements := by
  unfold lexText lexSource Lexer.ofSource at h ⊢
  rw [Source.ofText_append fun line => Text.getLast?_of_mem_lines hp] at h
  cases hmacros : c.macroTable with
  | error e =>
      rw [hmacros] at h
      cases h
  | ok macros =>
      rw [hmacros] at h
      exact Lexer.exists_run_of_append h

/-- The string that the cut falls into is the last token in front of it, and goes on behind it. -/
theorem statements_prefix_of_lines_in_string :
    ∃ d e, (lexText .none .standard ("#define A u v\nA ! c\ny;x = 'a&\n".toList ++
        "&b'\nz\n".toList)).result = .ok d ∧
      d.values = [["u".toList, "v".toList], ["y".toList], ["x".toList, "=".toList, "'ab'".toList],
        ["z".toList]] ∧
      (lexText .none .standard "#define A u v\nA ! c\ny;x = 'a&\n".toList).result = .ok e ∧
      e.values = [["u".toList, "v".toList], ["y".toList], ["x".toList, "=".toList, "'a".toList]] ∧
      e.statements.dropLast <+: d.statements := by
  have hvalues : (lexText .none .standard ("#define A u v\nA ! c\ny;x = 'a&\n".toList ++
      "&b'\nz\n".toList)).result.toOption.map Document.values =
        some [["u".toList, "v".toList], ["y".toList], ["x".toList, "=".toList, "'ab'".toList],
          ["z".toList]] := by
    decide +kernel
  have hfront : (lexText .none .standard
      "#define A u v\nA ! c\ny;x = 'a&\n".toList).result.toOption.map Document.values =
        some [["u".toList, "v".toList], ["y".toList], ["x".toList, "=".toList, "'a".toList]] := by
    decide +kernel
  obtain ⟨d, hresult, hd⟩ := exists_of_map_toOption hvalues
  obtain ⟨e, he, hprefix⟩ := statements_prefix_of_lines (.inr rfl) hresult
  rw [he] at hfront
  exact ⟨d, e, hresult, hd, he, Option.some.inj hfront, hprefix⟩

end FreeForm
