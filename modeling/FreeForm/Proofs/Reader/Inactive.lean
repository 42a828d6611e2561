import FreeForm.Proofs.Reader.Conditional
import FreeForm.Proofs.Reader.Survey

namespace FreeForm

/-!
# Directives without effect

Directive texts are given to a preprocessor one after another. One that is malformed, a definition
whose body does not scan, an include line and an unsupported directive change neither the macro table
nor the flag, and while the flag is set nothing but a conditional does. Whether a directive counts
depends on the flag, and the flag on the table that the directives in front of it left; but since
what does not count changes nothing, the others meet the same table and flag without it.
-/

/-- Whether a directive never changes a preprocessor. -/
def Directive.isInert : Directive → Bool
  | .define _ body => !(MacroTable.scanBody body).isOk
  | .includeFile .. | .unsupported _ => true
  | .undef _ | .ifdef _ | .ifndef _ | .otherwise | .endif => false

namespace Preprocessor

/-- Reads a directive and carries it out. An error leaves the preprocessor as it was. -/
def carryOut (p : Preprocessor) (text : Text) : Preprocessor :=
  match Directive.parse text with
  | .error _ => p
  | .ok d =>
      match p.apply d with
      | .error _ => p
      | .ok (_, p') => p'

def carryOutAll (p : Preprocessor) (texts : List Text) : Preprocessor :=
  texts.foldl carryOut p

/-- Whether a directive text is malformed, inert, or no conditional while source is skipped. -/
def isIdle (p : Preprocessor) (text : Text) : Bool :=
  match Directive.parse text with
  | .error _ => true
  | .ok d => d.isInert || p.skips d

/-- The directive texts that are not idle where they are met. -/
def active (p : Preprocessor) : List Text → List Text
  | [] => []
  | text :: texts =>
      if p.isIdle text then active (p.carryOut text) texts
      else text :: active (p.carryOut text) texts

theorem carryOut_of_apply {p : Preprocessor} {text : Text} {d : Directive}
    (hparse : Directive.parse text = .ok d)
    (h : ∀ outcome p', p.apply d = .ok (outcome, p') → p' = p) : p.carryOut text = p := by
  simp only [carryOut, hparse]
  split
  · rfl
  · exact h _ _ ‹_›

theorem apply_of_skips {p : Preprocessor} {d : Directive} (h : p.skips d = true) :
    p.apply d = .ok (.applied, p) :=
  if_pos h

theorem eq_of_apply_of_isInert {p p' : Preprocessor} {d : Directive} (hd : d.isInert = true)
    {outcome : Outcome} (h : p.apply d = .ok (outcome, p')) : p' = p := by
  cases applied_of_eq h with
  | passedOver | unbound | included | reported => rfl
  | @defined name body macros hdefine =>
      cases hscan : MacroTable.scanBody body with
      | error e =>
          rw [MacroTable.define, hscan] at hdefine
          cases hdefine
      | ok lexemes =>
          rw [Directive.isInert, hscan] at hd
          cases hd
  | erased => cases hd
  | turned hconditional =>
      cases d with
      | ifdef | ifndef | otherwise | endif => cases hd
      | define | undef | includeFile | unsupported => cases hconditional

theorem carryOut_of_isIdle {p : Preprocessor} {text : Text} (h : p.isIdle text = true) :
    p.carryOut text = p := by
  unfold isIdle at h
  cases hparse : Directive.parse text with
  | error e => simp only [carryOut, hparse]
  | ok d =>
      simp only [hparse, Bool.or_eq_true] at h
      refine carryOut_of_apply hparse fun outcome p' happly => ?_
      rcases h with hinert | hskips
      · exact eq_of_apply_of_isInert hinert happly
      · rw [apply_of_skips hskips] at happly
        cases happly
        rfl

/-- Looking at the keyword alone passes over only directives that have no effect. -/
theorem run_eq_carryOut (p : Preprocessor) (text : Text) : p.run text = p.carryOut text := by
  unfold run
  split
  · rename_i hpassed
    rw [Bool.and_eq_true, Bool.not_eq_true'] at hpassed
    refine (carryOut_of_isIdle ?_).symm
    unfold isIdle
    cases hparse : Directive.parse text with
    | error e => rfl
    | ok d =>
        have hd := hpassed.2
        rw [Directive.isConditionalLine_of_parse hparse] at hd
        simp [skips, hpassed.1, hd]
  · rfl

/-- Without the directives that are idle where they are met a preprocessor comes to the same table and
flag, and whether a directive is a conditional can be told from its keyword. A lexer, which looks at
the keyword before it reads a directive, comes to that table and flag too. -/
theorem carryOutAll_active (p : Preprocessor) (texts : List Text) :
    p.carryOutAll (p.active texts) = p.carryOutAll texts ∧
      texts.foldl run p = p.carryOutAll texts ∧
      ∀ text d, Directive.parse text = .ok d →
        Directive.isConditionalLine text = d.isConditional := by
  have hrun : run = carryOut := funext fun q => funext fun text => run_eq_carryOut q text
  refine ⟨?_, by rw [hrun, carryOutAll],
    fun text d hparse => Directive.isConditionalLine_of_parse hparse⟩
  induction texts generalizing p with
  | nil => rfl
  | cons text texts ih =>
      have hwhole : p.carryOutAll (text :: texts) = (p.carryOut text).carryOutAll texts := rfl
      rw [active, hwhole, ← ih]
      split
      · rename_i hidle
        rw [carryOut_of_isIdle hidle]
      · rfl

/-- A definition that is skipped, one that does not scan, and one without a name. -/
theorem carryOutAll_active_of_skipped :
    (start .empty).active ["#define A 1".toList, "#define C ^".toList, "#ifdef B".toList,
        "#define A 2".toList, "#undef A".toList, "#else".toList, "#define".toList,
        "#include <x>".toList, "#define A 3".toList] =
      ["#define A 1".toList, "#ifdef B".toList, "#else".toList, "#define A 3".toList] ∧
    (start .empty).carryOutAll ["#define A 1".toList, "#ifdef B".toList, "#else".toList,
        "#define A 3".toList] =
      (start .empty).carryOutAll ["#define A 1".toList, "#define C ^".toList, "#ifdef B".toList,
        "#define A 2".toList, "#undef A".toList, "#else".toList, "#define".toList,
        "#include <x>".toList, "#define A 3".toList] ∧
    Directive.isConditionalLine "#else".toList = true := by
  have hactive : (start .empty).active ["#define A 1".toList, "#define C ^".toList,
        "#ifdef B".toList, "#define A 2".toList, "#undef A".toList, "#else".toList,
        "#define".toList, "#include <x>".toList, "#define A 3".toList] =
      ["#define A 1".toList, "#ifdef B".toList, "#else".toList, "#define A 3".toList] := by
    decide +kernel
  obtain ⟨hsame, _, hconditional⟩ := carryOutAll_active (start .empty) ["#define A 1".toList,
    "#define C ^".toList, "#ifdef B".toList, "#define A 2".toList, "#undef A".toList,
    "#else".toList, "#define".toList, "#include <x>".toList, "#define A 3".toList]
  rw [hactive] at hsame
  exact ⟨hactive, hsame, hconditional _ .otherwise (by decide +kernel)⟩

end Preprocessor

end FreeForm
