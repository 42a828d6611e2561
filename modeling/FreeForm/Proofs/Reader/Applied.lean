import FreeForm.Preprocessor

namespace FreeForm

/-!
# What directives do

A directive is passed over, changes the macro table, turns the flag, or changes nothing and leaves
something to do. Only a definition can fail.
-/

namespace Preprocessor

/-- What carrying out a directive comes to. -/
inductive Applied (p : Preprocessor) :
    Directive → Except LexError (Outcome × Preprocessor) → Prop
  | passedOver {d : Directive} (hskips : p.skips d = true) : Applied p d (.ok (.applied, p))
  | defined {name body : Text} {macros : MacroTable}
      (hdefine : p.macros.define name body = .ok macros) :
      Applied p (.define name body) (.ok (.applied, { p with macros := macros }))
  | undefinable {name body : Text} {e : LexError} (hdefine : p.macros.define name body = .error e) :
      Applied p (.define name body) (.error e)
  | erased {name : Text} (hbound : p.macros.contains name = true) :
      Applied p (.undef name) (.ok (.applied, { p with macros := p.macros.erase name }))
  | unbound {name : Text} (hbound : p.macros.contains name = false) :
      Applied p (.undef name) (.ok (.report (.undefinedMacro name), p))
  | turned {d : Directive} (hd : d.isConditional = true) (suppressed : Bool) :
      Applied p d (.ok (.applied, { p with suppressed := suppressed }))
  | included (path : Text) (system : Bool) :
      Applied p (.includeFile path system) (.ok (.includeFile path, p))
  | reported (text : Text) :
      Applied p (.unsupported text) (.ok (.report (.unsupportedDirective text), p))

theorem applied (p : Preprocessor) (d : Directive) : Applied p d (p.apply d) := by
  unfold apply
  split
  · exact .passedOver ‹_›
  · cases d with
    | define name body =>
        dsimp only
        cases hdefine : p.macros.define name body with
        | error e => exact .undefinable hdefine
        | ok macros => exact .defined hdefine
    | undef name =>
        dsimp only
        split
        · exact .erased ‹_›
        · exact .unbound (Bool.eq_false_iff.mpr ‹_›)
    | ifdef | ifndef | otherwise | endif => exact .turned rfl _
    | includeFile path system => exact .included path system
    | unsupported text => exact .reported text

variable {p p' : Preprocessor} {d : Directive} {outcome : Outcome}

theorem applied_of_eq {result : Except LexError (Outcome × Preprocessor)}
    (h : p.apply d = result) : Applied p d result :=
  h ▸ p.applied d

/-- The only directive that fails is a definition whose body does not scan. -/
theorem define_of_apply {e : LexError} (h : p.apply d = .error e) :
    ∃ name body, d = .define name body ∧ p.macros.define name body = .error e := by
  cases applied_of_eq h with
  | undefinable hdefine => exact ⟨_, _, rfl, hdefine⟩

theorem suppressed_of_apply (h : p.apply d = .ok (outcome, p')) (hd : d.isConditional = false) :
    p'.suppressed = p.suppressed := by
  cases applied_of_eq h with
  | turned hconditional suppressed =>
      rw [hd] at hconditional
      cases hconditional
  | _ => rfl

/-- A conditional is carried out in a skipped region as well, and only turns the flag. -/
theorem apply_of_isConditional (p : Preprocessor) {d : Directive} (hd : d.isConditional = true) :
    ∃ suppressed, p.apply d = .ok (.applied, { p with suppressed := suppressed }) := by
  have happlied := p.applied d
  generalize p.apply d = result at happlied ⊢
  cases happlied with
  | passedOver => exact ⟨p.suppressed, rfl⟩
  | turned _ suppressed => exact ⟨suppressed, rfl⟩
  | defined | undefinable | erased | unbound | included | reported => cases hd

end Preprocessor

end FreeForm
