import Mathlib.Data.List.Forall2
import FreeForm.Proofs.Scan.DirectiveLine

namespace FreeForm

/-!
# Lines that are ended differently

What a line is scanned into depends on its content. Its terminator, a line feed with or without a
carriage return in front, only comes back as the text of the line end, and that is a blank like any
other: two rows of lexemes that differ in line ends are taken apart at the same places.
-/

/-- The same error, or values that are related. -/
inductive ResultsAgree {ε α β : Type} (R : α → β → Prop) : Except ε α → Except ε β → Prop
  | error (e : ε) : ResultsAgree R (.error e) (.error e)
  | ok {a : α} {b : β} (h : R a b) : ResultsAgree R (.ok a) (.ok b)

namespace ResultsAgree

variable {ε α β : Type} {R : α → β → Prop}

theorem map {γ : Type} {f : γ → α} {g : γ → β} (h : ∀ c, R (f c) (g c)) (x : Except ε γ) :
    ResultsAgree R (x.map f) (x.map g) := by
  cases x with
  | error e => exact .error e
  | ok c => exact .ok (h c)

theorem and_right {P : β → Prop} {x : Except ε α} {y : Except ε β} (h : ResultsAgree R x y)
    (hy : ∀ b, y = .ok b → P b) : ResultsAgree (fun a b => R a b ∧ P b) x y := by
  cases h with
  | error e => exact .error e
  | ok hab => exact .ok ⟨hab, hy _ rfl⟩

theorem exists_ok {x : Except ε α} {y : Except ε β} (h : ResultsAgree R x y) {a : α}
    (hx : x = .ok a) : ∃ b, y = .ok b ∧ R a b := by
  cases h with
  | error e => cases hx
  | ok hab =>
      cases hx
      exact ⟨_, rfl, hab⟩

end ResultsAgree

/-- The same text, or two texts that both end a line. -/
def Text.SameButEnd (t u : Text) : Prop :=
  t = u ∨ t.getLast? = some '\n' ∧ u.getLast? = some '\n'

theorem Text.SameButEnd.isEmpty {t u : Text} (h : SameButEnd t u) : t.isEmpty = u.isEmpty := by
  rcases h with rfl | ⟨ht, hu⟩
  · rfl
  · cases t <;> cases u <;> simp_all

namespace Lexeme

/-- The same lexeme, or two line ends. -/
inductive SameButEnd : Lexeme → Lexeme → Prop
  | refl (l : Lexeme) : SameButEnd l l
  | lineEnd {t u : Text} (h : Text.SameButEnd t u) : SameButEnd ⟨.lineEnd, t⟩ ⟨.lineEnd, u⟩

namespace SameButEnd

variable {l m : Lexeme} (h : SameButEnd l m)
include h

theorem role : l.role = m.role := by
  cases h <;> rfl

theorem text : Text.SameButEnd l.text m.text := by
  cases h with
  | refl => exact .inl rfl
  | lineEnd h => exact h

theorem eq_of_role (hl : l.role ≠ .whitespace) : l = m := by
  cases h with
  | refl => rfl
  | lineEnd => exact absurd rfl hl

theorem isLiminal : l.isLiminal = m.isLiminal := by
  unfold Lexeme.isLiminal
  rw [h.role]

theorem isContinuation : l.isContinuation = m.isContinuation := by
  unfold Lexeme.isContinuation
  rw [h.role]

end SameButEnd

theorem sameButEnd_refl (ls : List Lexeme) : List.Forall₂ SameButEnd ls ls :=
  List.forall₂_same.mpr fun l _ => .refl l

end Lexeme

/-- Rows that are related are cut at the same place by predicates that do not tell them apart. -/
theorem forall₂_takeWhile {α β : Type} {R : α → β → Prop} {p : α → Bool} {q : β → Bool}
    (hpq : ∀ a b, R a b → p a = q b) {l : List α} {m : List β} (h : List.Forall₂ R l m) :
    List.Forall₂ R (l.takeWhile p) (m.takeWhile q) := by
  induction h with
  | nil => exact .nil
  | @cons a b l m hab _ ih =>
      rw [List.takeWhile_cons, List.takeWhile_cons, hpq a b hab]
      split
      · exact .cons hab ih
      · exact .nil

theorem forall₂_dropWhile {α β : Type} {R : α → β → Prop} {p : α → Bool} {q : β → Bool}
    (hpq : ∀ a b, R a b → p a = q b) {l : List α} {m : List β} (h : List.Forall₂ R l m) :
    List.Forall₂ R (l.dropWhile p) (m.dropWhile q) := by
  induction h with
  | nil => exact .nil
  | @cons a b l m hab hlm ih =>
      rw [List.dropWhile_cons, List.dropWhile_cons, hpq a b hab]
      split
      · exact ih
      · exact .cons hab hlm

theorem Lexeme.texts_sameButEnd {ls ms : List Lexeme} (h : List.Forall₂ SameButEnd ls ms) :
    List.Forall₂ Text.SameButEnd (ls.map text) (ms.map text) := by
  rw [List.forall₂_map_left_iff, List.forall₂_map_right_iff]
  exact h.imp fun _ _ hlm => hlm.text

namespace Line

/-- Two lines with the same content, which are both ended or both not. -/
structure SameButEnd (line line' : Text) : Prop where
  body : Line.body line = Line.body line'
  terminator : Text.SameButEnd (Line.terminator line) (Line.terminator line')

variable {line line' : Text} (h : SameButEnd line line')
include h

theorem SameButEnd.directiveText : directiveText line = directiveText line' := by
  rw [← dropWhile_body, ← dropWhile_body, h.body]

theorem SameButEnd.isDirective : isDirective line = isDirective line' := by
  rw [Bool.eq_iff_iff]
  constructor <;> intro hline
  · obtain ⟨rest, hrest⟩ := head?_directiveText hline
    exact isDirective_of_directiveText (h.directiveText ▸ hrest)
  · obtain ⟨rest, hrest⟩ := head?_directiveText hline
    exact isDirective_of_directiveText (h.directiveText.symm ▸ hrest)

theorem SameButEnd.verbatim :
    List.Forall₂ Text.SameButEnd (verbatim line) (verbatim line') := by
  unfold Line.verbatim
  rw [h.body]
  refine List.rel_filter (fun t u htu => ?_) (.cons (.inl rfl) (.cons h.terminator .nil))
  dsimp only
  rw [htu.isEmpty]

end Line

/-- The lexemes of two lines differ in the line end at most, and the same string is left open. -/
theorem Scanner.scan_sameButEnd {line line' : Text} (h : Line.SameButEnd line line')
    (s : Scanner) :
    ResultsAgree (List.Forall₂ Lexeme.SameButEnd) (s.scan line).1 (s.scan line').1 ∧
      (s.scan line).2 = (s.scan line').2 := by
  unfold scan scanLine scanLineWith ScannedLine.ofScan
  rw [← h.body]
  generalize Line.scan (fun _ => none) s.openDelimiter (Line.body line) = scanned
  cases hrest : scanned.rest with
  | nil =>
      refine ⟨.ok ?_, rfl⟩
      exact List.rel_append (Lexeme.sameButEnd_refl _) (.cons (.lineEnd h.terminator) .nil)
  | cons c rest => exact ⟨.error _, rfl⟩

theorem directiveText?_of_sameButEnd {ls ms : List Lexeme}
    (h : List.Forall₂ Lexeme.SameButEnd ls ms) : directiveText? ls = directiveText? ms := by
  have hfind : ∀ ls ms : List Lexeme, List.Forall₂ Lexeme.SameButEnd ls ms →
      ls.find? (!·.isWhitespace) = ms.find? (!·.isWhitespace) := by
    intro ls ms hlm
    induction hlm with
    | nil => rfl
    | cons hlm _ ih =>
        cases hlm with
        | refl => rw [List.find?_cons, List.find?_cons, ih]
        | lineEnd => exact ih
  unfold directiveText?
  rw [hfind _ _ (forall₂_takeWhile (fun _ _ hlm => hlm.isLiminal) h)]

/-- Parts of two lines that differ in the line end at most. -/
structure LineParts.SameButEnd (parts parts' : LineParts) : Prop where
  lead : List.Forall₂ Text.SameButEnd parts.lead parts'.lead
  content : List.Forall₂ Lexeme.SameButEnd parts.content parts'.content

theorem LineParts.SameButEnd.refl (parts : LineParts) : parts.SameButEnd parts :=
  ⟨List.forall₂_same.mpr fun _ _ => .inl rfl, Lexeme.sameButEnd_refl parts.content⟩

theorem LineParts.ofLexemes_sameButEnd {ls ms : List Lexeme}
    (h : List.Forall₂ Lexeme.SameButEnd ls ms) : (ofLexemes ls).SameButEnd (ofLexemes ms) :=
  ⟨Lexeme.texts_sameButEnd (forall₂_takeWhile (fun _ _ hlm => hlm.isLiminal) h),
    forall₂_dropWhile (fun _ _ hlm => hlm.isLiminal) h⟩

end FreeForm
