import FreeForm.Proofs.Lexer.Composition
import FreeForm.Proofs.Lexer.LineEnds
import FreeForm.Proofs.Reader.Conditional

namespace FreeForm

/-!
# Lexing through a conditional

Of the two branches of a conditional the lexer goes through one as if nothing else stood there. The
other branch and the directives around both are liminal text to it, and none of that shows in the
tokens: not even when a statement or a string is continued across the conditional.
-/

open Continuation

variable {env : Environment}

theorem isSuppressed_assemble {lines : List Text}
    (hlines : ∀ line ∈ lines, Line.isConditional line = false) (r : Reader) (p : Phase) :
    (assemble env (lines.map .ok) r p).reader.isSuppressed = r.isSuppressed := by
  induction lines generalizing r p with
  | nil => rfl
  | cons line lines ih =>
      obtain ⟨hline, hlines⟩ := List.forall_mem_cons.mp hlines
      have hread := Reader.isSuppressed_read env r hline
      simp only [List.map_cons, assemble, Taking.followedBy]
      split
      · exact hread
      · exact (ih hlines _ _).trans hread

/-- What stands around some lines, and is passed over by every active reader, does not show. -/
theorem assemble_between_alike {before lines after : List Text} {r : Reader} {n : Nat}
    (hactive : r.isSuppressed = false)
    (hbefore : Reader.Passes env before r (r.atLine n))
    (hends : ∀ line ∈ lines, line.getLast? = some '\n')
    (hlines : ∀ line ∈ lines, Line.isConditional line = false)
    (hafter : ∀ s : Reader, s.isSuppressed = false → ∃ m, Reader.Passes env after s (s.atLine m))
    {p q : Phase} (hp : p.AtLineEnd) (hpq : p.Alike q) {r' : Reader} (hr : r.SameButLine r')
    (rest : Source) :
    (assemble env (before.map .ok ++ (lines.map .ok ++ (after.map .ok ++ rest))) r p).Alike
      Reader.SameButLine (assemble env (lines.map .ok ++ rest) r' q) := by
  obtain ⟨p₁, events, hp₁, hpp₁, hassemble⟩ := hbefore.exists_phase hp
  have hboth := assemble_alike (Reader.readsAlike_sameButLine env) (lines.map .ok) (hr.atLine n)
    (hpp₁.trans hpq)
  rw [hassemble]
  refine (assemble_append_alike hboth ?_).prepend rfl events []
  intro q₁ q₁' hresult hqq
  have hactive' : (assemble env (lines.map .ok) (r.atLine n) p₁).reader.isSuppressed = false :=
    (isSuppressed_assemble hlines _ _).trans hactive
  obtain ⟨m, hpasses⟩ := hafter _ hactive'
  obtain ⟨q₂, later, _, hqq₂, hbehind⟩ :=
    hpasses.exists_phase (Phase.atLineEnd_assemble hends hp₁ hresult)
  rw [hbehind]
  exact (assemble_alike (Reader.readsAlike_sameButLine env) rest (hboth.reader.atLine m)
    (hqq₂.trans hqq)).prepend rfl later []

theorem Line.lines_ifdef {name : Text} (hword : ∀ c ∈ name, Unicode.isWhiteSpace c = false) :
    (ifdef name).lines = [ifdef name] := by
  have hkeyword : '\n' ∉ "#ifdef ".toList := by decide
  refine splitAfter_line fun c hc => ?_
  rcases List.mem_append.mp hc with hc | hc
  · rintro rfl
    exact hkeyword hc
  · rintro rfl
    have hspace := hword '\n' hc
    revert hspace
    decide

/-- A conditional: its first branch is for when the name is bound. -/
def Line.conditional (name first second : Text) : Text :=
  ifdef name ++ first ++ otherwise ++ second ++ endif

theorem Source.ofText_conditional {name first second : Text}
    (hword : ∀ c ∈ name, Unicode.isWhiteSpace c = false)
    (hfirst : ∀ line ∈ first.lines, line.getLast? = some '\n')
    (hsecond : ∀ line ∈ second.lines, line.getLast? = some '\n') (q : Text) :
    ofText (Line.conditional name first second ++ q) =
      .ok (Line.ifdef name) :: (first.lines.map .ok ++ .ok Line.otherwise ::
        (second.lines.map .ok ++ .ok Line.endif :: ofText q)) := by
  have hline : ∀ line more : Text, line.lines = [line] → line.getLast? = some '\n' →
      ofText (line ++ more) = .ok line :: ofText more := by
    intro line more hlines hend
    have hends : ∀ l ∈ line.lines, l.getLast? = some '\n' := by
      intro l hl
      rw [hlines] at hl
      rwa [List.mem_singleton.mp hl]
    rw [ofText_append hends, ofText, hlines]
    rfl
  simp only [Line.conditional, List.append_assoc]
  rw [hline _ _ (Line.lines_ifdef hword) (Reader.getLast?_ifdef name), ofText_append hfirst,
    hline _ _ rfl rfl, ofText_append hsecond, hline _ _ rfl rfl]
  rfl

section Branches

variable {name : Text} (hname : name ≠ []) (hword : ∀ c ∈ name, Unicode.isWhiteSpace c = false)
  {first second : Text}
  (hfirst : ∀ line ∈ first.lines, line.getLast? = some '\n' ∧ Line.isConditional line = false)
  (hsecond : ∀ line ∈ second.lines, line.getLast? = some '\n' ∧ Line.isConditional line = false)
include hname hword hfirst hsecond

/-- Only the branch that is asked for shows. -/
theorem assemble_conditional_alike (q : Text) {r r' : Reader} (hactive : r.isSuppressed = false)
    (hr : r.SameButLine r') {p p' : Phase} (hp : p.AtLineEnd) (hpp : p.Alike p') :
    (assemble env (.ofText (Line.conditional name first second ++ q)) r p).Alike
      Reader.SameButLine
      (assemble env (.ofText ((if r.macros.contains name then first else second) ++ q)) r' p') := by
  have hends := fun line hline => (hfirst line hline).1
  have hends' := fun line hline => (hsecond line hline).1
  have hplain := fun line hline => (hfirst line hline).2
  have hplain' := fun line hline => (hsecond line hline).2
  rw [Source.ofText_conditional hword hends hends']
  cases hbound : r.macros.contains name with
  | true =>
      obtain ⟨n, hbefore⟩ : ∃ n, Reader.Passes env [Line.ifdef name] r (r.atLine n) :=
        Reader.passes_to_first hname hword hactive hbound
      have hthrough := assemble_between_alike hactive hbefore hends hplain
        (fun s hs => Reader.passes_from_first hs hends' hplain') hp hpp hr (.ofText q)
      rw [if_pos rfl, Source.ofText_append hends]
      simpa [Source.ofText] using hthrough
  | false =>
      obtain ⟨n, hbefore⟩ : ∃ n, Reader.Passes env
          (Line.ifdef name :: first.lines ++ [Line.otherwise]) r (r.atLine n) :=
        Reader.passes_to_second hname hword hactive hbound hends hplain
      have hthrough := assemble_between_alike hactive hbefore hends' hplain'
        (fun s hs => Reader.passes_from_second hs) hp hpp hr (.ofText q)
      rw [if_neg Bool.false_ne_true, Source.ofText_append hends']
      simpa [Source.ofText] using hthrough

end Branches

/-- The same tokens and the same error but for its line, and the same macros and inclusions left. -/
structure Lexer.Yielded.Agrees (y z : Yielded) : Prop where
  statements : y.statements.map Statement.bare = z.statements.map Statement.bare
  failure : y.failure.map (·.atLine 0) = z.failure.map (·.atLine 0)
  macros : y.lexer.macros = z.lexer.macros
  inclusions : y.lexer.reader.inclusions = z.lexer.reader.inclusions

theorem Assembly.Alike.agrees {a b : Assembly} (h : a.Alike Reader.SameButLine b) :
    a.yielded.Agrees b.yielded := by
  obtain ⟨ss, r, result, es⟩ := a
  obtain ⟨ss', r', result', es'⟩ := b
  obtain ⟨hstatements, hresult, hreader⟩ := h
  have hmacros : r.macros = r'.macros := (congrArg Reader.macros hreader).symm
  have hinclusions : r.inclusions = r'.inclusions := (congrArg Reader.inclusions hreader).symm
  cases hresult with
  | error he =>
      refine ⟨hstatements, ?_, hmacros, hinclusions⟩
      exact congrArg some he
  | ok hphase =>
      refine ⟨?_, rfl, hmacros, hinclusions⟩
      have hlast := hphase.last
      simp only [Assembly.yielded, List.map_append, hstatements, hlast]

theorem Assembly.reader_yielded (a : Assembly) : a.yielded.lexer.reader = a.reader := by
  obtain ⟨ss, r, result, es⟩ := a
  cases result <;> rfl

namespace Lexer

/-- A conditional reads as the branch that its name asks for, to whatever stands in front of it and
behind it, and whatever the other branch holds. -/
theorem drain_conditional (env : Environment) (macros : MacroTable) (source : Option Path)
    (name p first second q : Text) (hname : name ≠ [])
    (hword : ∀ c ∈ name, Unicode.isWhiteSpace c = false)
    (hp : ∀ line ∈ p.lines, line.getLast? = some '\n')
    (hfirst : ∀ line ∈ first.lines, line.getLast? = some '\n' ∧ Line.isConditional line = false)
    (hsecond : ∀ line ∈ second.lines,
      line.getLast? = some '\n' ∧ Line.isConditional line = false)
    (hactive : ((start (.ofText p) macros source).drain env).lexer.reader.isSuppressed = false) :
    ((start (.ofText (p ++ Line.conditional name first second ++ q)) macros source).drain
      env).Agrees
      ((start (.ofText (p ++ (if ((start (.ofText p) macros source).drain
          env).lexer.macros.contains name then first else second) ++ q)) macros source).drain
        env) := by
  simp only [drain_start, Assembly.reader_yielded, Lexer.macros] at hactive ⊢
  apply Assembly.Alike.agrees
  rw [List.append_assoc, List.append_assoc, Source.ofText_append hp, Source.ofText_append hp]
  refine assemble_append_alike ?_ fun phase phase' hresult hphase => ?_
  · exact assemble_alike (Reader.readsAlike_sameButLine env) _ (.refl _) (.refl _)
  · have hborder : phase.AtLineEnd :=
      Phase.atLineEnd_assemble hp Phase.atLineEnd_start hresult
    exact assemble_conditional_alike hname hword hfirst hsecond q hactive (.refl _) hborder hphase

/-- A string goes on in the branch that is taken; the other one would not even scan. -/
theorem drain_conditional_of_open_string :
    ((start (.ofText ("#define N 1\nx = 'a&\n".toList ++
        Line.conditional "N".toList "&b'\n".toList "^ \"&\n#define\n'&\n".toList ++
          "y\n".toList)) .empty none).drain ⟨.none, [], 0, none⟩).statements.map Statement.values =
      [["x".toList, "=".toList, "'ab'".toList], ["y".toList]] ∧
    ((start (.ofText ("#define N 1\nx = 'a&\n".toList ++
        Line.conditional "N".toList "&b'\n".toList "^ \"&\n#define\n'&\n".toList ++
          "y\n".toList)) .empty none).drain ⟨.none, [], 0, none⟩).Agrees
      ((start (.ofText ("#define N 1\nx = 'a&\n".toList ++ "&b'\n".toList ++ "y\n".toList))
        .empty none).drain ⟨.none, [], 0, none⟩) := by
  have hword : ∀ c ∈ "N".toList, Unicode.isWhiteSpace c = false := by
    intro c hc
    obtain rfl : c = 'N' := List.mem_singleton.mp hc
    decide
  have hagrees := drain_conditional ⟨.none, [], 0, none⟩ .empty none "N".toList
    "#define N 1\nx = 'a&\n".toList "&b'\n".toList "^ \"&\n#define\n'&\n".toList "y\n".toList
    (by decide) hword (by decide) (by decide) (by decide) (by decide +kernel)
  have hbound : ((start (.ofText "#define N 1\nx = 'a&\n".toList) .empty none).drain
      ⟨.none, [], 0, none⟩).lexer.macros.contains "N".toList = true := by
    decide +kernel
  rw [hbound, if_pos rfl] at hagrees
  exact ⟨by decide +kernel, hagrees⟩

end Lexer

end FreeForm
