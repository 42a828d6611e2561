import FreeForm.Proofs.Draft.LaidOut
import FreeForm.Proofs.Scan.LeftOpen
import FreeForm.Proofs.Scan.Rows

namespace FreeForm

/-!
# Printed lines

The parts that a line leads to, with the rest of the line in view: each part is a lexeme of the line
in front of that rest, or a token that was made of something else, a macro body or two halves. In
the second case nothing is known of its text. A printed line also tells which string it leaves open:
behind a mark that hides the rest of it there is none, so it is the string of the newest token.
-/

open Lexeme

/-- What a word leaves open in front of a liminal text: nothing but in front of a mark, and nothing
if it was taken from a macro body. -/
def Word.Leaves (w : Word) (t : Text) (o : Option Char) : Prop :=
  if t = Continuation.mark ∧ w.origin ≠ .expanded then Line.Leaves w.value o else o = none

theorem Word.Leaves.unique {w : Word} {t : Text} {o o' : Option Char} (h : w.Leaves t o)
    (h' : w.Leaves t o') : o = o' := by
  unfold Leaves at h h'
  split at h
  · rename_i hmark
    rw [if_pos hmark] at h'
    exact h.unique h'
  · rename_i hmark
    rw [if_neg hmark] at h'
    rw [h, h']

theorem Word.leaves_of_ne_mark (w : Word) {t : Text} (ht : t ≠ Continuation.mark) :
    w.Leaves t none :=
  if_neg (fun h => ht h.1) |>.mpr rfl

/-- What a word leaves open in front of some parts. -/
def Word.LeavesBefore (w : Word) (o : Option Char) : List Part → Prop
  | .liminal t :: _ => w.Leaves t o
  | _ => o = none

namespace Layout

/-- Between two lines the string is open that the newest token leaves. -/
def Leaves (σ : Layout) (o : Option Char) : Prop :=
  match σ.group with
  | [] => o = none
  | w :: _ => ∃ t ts, σ.between = t :: ts ∧ w.Leaves t o

theorem Leaves.unique {σ : Layout} {o o' : Option Char} (h : σ.Leaves o) (h' : σ.Leaves o') :
    o = o' := by
  unfold Leaves at h h'
  split at h
  · rename_i hgroup
    rw [hgroup] at h'
    exact h.trans (Eq.symm h')
  · rename_i w older hgroup
    rw [hgroup] at h'
    obtain ⟨t, ts, hbetween, h⟩ := h
    obtain ⟨t', ts', hbetween', h'⟩ := h'
    rw [hbetween] at hbetween'
    cases hbetween'
    exact h.unique h'

theorem leaves_of_group_nil {σ : Layout} (h : σ.group = []) : σ.Leaves none := by
  rw [Leaves, h]

theorem leaves_of_group_cons {σ : Layout} {w : Word} {older : List Word}
    (hgroup : σ.group = w :: older) {t : Text} {ts : List Text} (hbetween : σ.between = t :: ts)
    {o : Option Char} (h : w.Leaves t o) : σ.Leaves o := by
  rw [Leaves, hgroup]
  exact ⟨t, ts, hbetween, h⟩

@[simp] theorem between_addLiminal (σ : Layout) (t : Text) :
    (σ.addLiminal t).between = σ.between ++ [t] := rfl

theorem between_run_ofLiminals (σ : Layout) (ts : List Text) :
    (σ.run (Part.ofLiminals ts)).between = σ.between ++ ts := by
  induction ts generalizing σ with
  | nil => exact (List.append_nil _).symm
  | cons t ts ih =>
      refine (ih (σ.addLiminal t)).trans ?_
      rw [between_addLiminal, List.append_assoc]
      rfl

theorem group_addLiminal (σ : Layout) (t : Text) :
    (σ.addLiminal t).group = [] ∨ (σ.addLiminal t).group = σ.group := by
  unfold addLiminal close
  dsimp only
  split
  · split
    · exact .inr rfl
    · exact .inl rfl
  · exact .inr rfl

theorem group_run_ofLiminals (σ : Layout) (ts : List Text) :
    (σ.run (Part.ofLiminals ts)).group = [] ∨
      (σ.run (Part.ofLiminals ts)).group = σ.group := by
  induction ts generalizing σ with
  | nil => exact .inr rfl
  | cons t ts ih =>
      rcases ih (σ.addLiminal t) with h | h
      · exact .inl h
      · exact (group_addLiminal σ t).imp (fun hnil => h.trans hnil) fun hkept => h.trans hkept

/-- Liminal text that closes no statement opens and closes no string. -/
theorem Leaves.of_group_eq {σ : Layout} {o : Option Char} (h : σ.Leaves o) {ts : List Text}
    (hgroup : (σ.run (Part.ofLiminals ts)).group = σ.group) :
    (σ.run (Part.ofLiminals ts)).Leaves o := by
  unfold Leaves at h
  cases hold : σ.group with
  | nil =>
      rw [hold] at h hgroup
      obtain rfl : o = none := h
      exact leaves_of_group_nil hgroup
  | cons w older =>
      rw [hold] at h hgroup
      obtain ⟨t, ts', hbetween, h⟩ := h
      have hkept : (σ.run (Part.ofLiminals ts)).between = t :: (ts' ++ ts) := by
        rw [between_run_ofLiminals, hbetween]
        rfl
      exact leaves_of_group_cons hgroup hkept h

/-- Behind a line without tokens nothing more is open. -/
theorem Leaves.ofLiminals {σ : Layout} (h : σ.Leaves none) (ts : List Text) :
    (σ.run (Part.ofLiminals ts)).Leaves none :=
  (group_run_ofLiminals σ ts).elim leaves_of_group_nil h.of_group_eq

theorem next_hidden {opened : Bool} {k : Liminal} (hk : k ≠ .lineEnd) :
    LinePlace.next opened .hidden k = .hidden := by
  cases k <;> first | rfl | exact absurd rfl hk

/-- What a mark hides closes nothing. -/
theorem group_addLiminal_of_hidden {σ : Layout} (h : σ.place = .hidden) (t : Text) :
    (σ.addLiminal t).group = σ.group :=
  (addLiminal_of_open (.inl (h ▸ LinePlace.closes_hidden _))).1

end Layout

/-- The parts of a line, the rest of the line in view, and the string that it leaves open. A word
for which `made` holds need not be a lexeme of the line. -/
inductive Printed (made : Word → Prop) : Layout → Text → List Part → Option Char → Prop
  | ended {σ : Layout} {e : Text} (hbody : Line.body e = []) (hend : Liminal.ofText e = .lineEnd) :
      Printed made σ e [.liminal e] none
  | token {σ : Layout} {k : Kind} {w : Word} {u : Text} {ps : List Part} {o o' : Option Char}
      (hplace : σ.place ≠ .hidden) (hsemantic : Lexeme.isSemantic ⟨k, w.value⟩ = true)
      (hfeed : '\n' ∉ w.value) (hstarts : Line.Starts ⟨k, w.value⟩ u o)
      (hexpanded : w.origin = .expanded → o = none) (h : Printed made (σ.addToken w) u ps o') :
      Printed made σ (w.value ++ u) (.token w :: ps) (o <|> o')
  | liminal {σ : Layout} {l : Lexeme} {u : Text} {ps : List Part} {o : Option Char}
      (hl : l.isSemantic = true → σ.place = .hidden ∨ Liminal.ofText l.text = .name)
      (hend : Liminal.ofText l.text ≠ .lineEnd) (hfeed : '\n' ∉ l.text)
      (hstarts : Line.Starts l u none) (h : Printed made (σ.addLiminal l.text) u ps o) :
      Printed made σ (l.text ++ u) (.liminal l.text :: ps) o
  | made {σ : Layout} {w : Word} {u u' : Text} {ps : List Part} {o o' : Option Char}
      (hmade : made w) (hplace : σ.place ≠ .hidden)
      (hsource : ∃ l r o, Line.Piece.first? (Line.body u) = some ⟨l, r, o⟩ ∧ l.isSemantic = true)
      (hleaves : w.LeavesBefore o ps) (h : Printed made (σ.addToken w) u' ps o') :
      Printed made σ u (.token w :: ps) (o <|> o')

namespace Printed

variable {made : Word → Prop} {σ : Layout} {u : Text} {ps : List Part} {o : Option Char}

/-- Behind a mark that hides it a line is printed as it stands, and nothing is open behind it. -/
theorem exists_of_hidden (h : Printed made σ u ps o) (hplace : σ.place = .hidden) :
    ∃ ts, ps = Part.ofLiminals ts ∧ ps.flatMap Part.text = u ∧ o = none ∧
      (σ.run ps).group = σ.group := by
  induction h with
  | @ended σ e _ _ =>
      exact ⟨[e], rfl, by simp [Part.text], rfl, Layout.group_addLiminal_of_hidden hplace e⟩
  | token hvisible => exact absurd hplace hvisible
  | @liminal σ l u ps o _ hend _ _ _ ih =>
      obtain ⟨ts, rfl, htext, rfl, hgroup⟩ := ih (by
        rw [Layout.place_addLiminal, hplace, Layout.next_hidden hend])
      refine ⟨l.text :: ts, rfl, by rw [List.flatMap_cons, htext]; rfl, rfl, ?_⟩
      exact hgroup.trans (Layout.group_addLiminal_of_hidden hplace l.text)
  | made _ hvisible => exact absurd hplace hvisible

theorem ne_nil (h : Printed made σ u ps o) : ps ≠ [] := by
  cases h <;> simp

end Printed

namespace Line

/-- A string is left open in front of a trailing mark only. -/
theorem Starts.eq_mark_of_opened {l : Lexeme} {u : Text} {o : Option Char} (h : Starts l u o)
    (ho : o ≠ none) : ∃ blanks, body u = continuationMark :: blanks :=
  (opened_of_first? h.first ho).2.imp fun _ h => h.1

end Line

namespace Printed

variable {made : Word → Prop} {σ : Layout} {u : Text} {ps : List Part} {o : Option Char}

/-- A line that starts with a mark is printed with the mark. -/
theorem eq_mark_of_body (h : Printed made σ u ps o) {t : Text}
    (hbody : Line.body u = continuationMark :: t) :
    ∃ ps', ps = .liminal Continuation.mark :: ps' := by
  have hmark : ∀ {l : Lexeme} {r : Text} {o : Option Char},
      Line.Piece.first? (Line.body u) = some ⟨l, r, o⟩ → l = Line.marker := by
    intro l r o hfirst
    rw [hbody, Line.first?_mark] at hfirst
    cases hfirst
    rfl
  cases h with
  | ended hnil _ =>
      rw [hnil] at hbody
      cases hbody
  | @token _ k w u ps o o' _ hsemantic _ hstarts _ _ =>
      have hfirst := hstarts.first
      rw [← hstarts.content] at hfirst
      rw [hmark hfirst] at hsemantic
      cases hsemantic
  | @liminal _ l u ps o _ _ _ hstarts _ =>
      have hfirst := hstarts.first
      rw [← hstarts.content] at hfirst
      obtain rfl := hmark hfirst
      exact ⟨ps, rfl⟩
  | made _ _ hsource _ _ =>
      obtain ⟨l, r, o, hfirst, hsemantic⟩ := hsource
      rw [hmark hfirst] at hsemantic
      cases hsemantic

/-- Liminal text is a lexeme of the line, or its end. -/
theorem liminal_cases {t : Text} (h : Printed made σ u (.liminal t :: ps) o) :
    (ps = [] ∧ Line.body t = [] ∧ Liminal.ofText t = .lineEnd ∧ o = none ∧ u = t) ∨
      ∃ k v, u = t ++ v ∧ Line.Starts ⟨k, t⟩ v none ∧ Liminal.ofText t ≠ .lineEnd ∧
        Printed made (σ.addLiminal t) v ps o := by
  generalize hps : Part.liminal t :: ps = ps' at h
  cases h with
  | ended hbody hend =>
      cases hps
      exact .inl ⟨rfl, hbody, hend, rfl, rfl⟩
  | @liminal _ l v ps o _ hend _ hstarts h =>
      obtain ⟨htext, rfl⟩ := List.cons.inj hps
      obtain rfl := Part.liminal.inj htext
      exact .inr ⟨l.kind, v, rfl, hstarts, hend, h⟩
  | token => cases hps
  | made => cases hps

theorem body_of_eq_mark (h : Printed made σ u (.liminal Continuation.mark :: ps) o) :
    ∃ t, Line.body u = continuationMark :: t := by
  rcases h.liminal_cases with ⟨_, _, hend, _⟩ | ⟨_, v, rfl, hstarts, _⟩
  · cases hend
  · exact ⟨Line.body v, hstarts.content⟩

/-- A mark inside a line hides the rest of it. -/
theorem exists_of_mark (h : Printed made σ u (.liminal Continuation.mark :: ps) o)
    (hplace : σ.place = .inside) :
    ∃ ts, ps = Part.ofLiminals ts ∧
      (σ.run (.liminal Continuation.mark :: ps)).group = σ.group := by
  rcases h.liminal_cases with ⟨_, _, hend, _⟩ | ⟨_, v, _, _, _, h⟩
  · cases hend
  · have hhidden : (σ.addLiminal Continuation.mark).place = .hidden := by
      rw [Layout.place_addLiminal, hplace]
      rfl
    obtain ⟨ts, rfl, _, _, hgroup⟩ := h.exists_of_hidden hhidden
    have hopen : σ.place.closes (.ofText Continuation.mark) = false := by
      rw [hplace]
      rfl
    exact ⟨ts, rfl, hgroup.trans (Layout.addLiminal_of_open (.inl hopen)).1⟩

/-- A word leaves open in front of the parts of a line what it does in front of the mark that the line
starts with, if it starts with one. -/
theorem leavesBefore_of_mark (h : Printed made σ u ps o) {w : Word} {opened : Option Char}
    (hmark : ∀ t, Line.body u = continuationMark :: t → w.Leaves Continuation.mark opened)
    (hopened : opened ≠ none → ∃ t, Line.body u = continuationMark :: t) :
    w.LeavesBefore opened ps := by
  by_cases hfront : ∃ ps', ps = .liminal Continuation.mark :: ps'
  · obtain ⟨ps', rfl⟩ := hfront
    obtain ⟨t, hbody⟩ := h.body_of_eq_mark
    exact hmark t hbody
  · obtain rfl : opened = none := by
      by_contra hopen
      obtain ⟨_, hbody⟩ := hopened hopen
      exact hfront (h.eq_mark_of_body hbody)
    cases ps with
    | nil => rfl
    | cons p ps =>
        cases p with
        | token => rfl
        | liminal t => exact w.leaves_of_ne_mark fun ht => hfront ⟨ps, by rw [ht]⟩

/-- A token of a line leaves open in front of the parts behind it what its quotes do. -/
theorem leavesBefore (h : Printed made σ u ps o) {k : Kind} {w : Word} {opened : Option Char}
    (hsemantic : Lexeme.isSemantic ⟨k, w.value⟩ = true)
    (hstarts : Line.Starts ⟨k, w.value⟩ u opened)
    (hexpanded : w.origin = .expanded → opened = none) : w.LeavesBefore opened ps := by
  refine h.leavesBefore_of_mark (fun t hbody => ?_) hstarts.eq_mark_of_opened
  have hfirst := hstarts.first
  rw [hbody] at hfirst
  have hkind : k ≠ .comment := by
    rintro rfl
    cases hsemantic
  unfold Word.Leaves
  split
  · exact Line.leaves_of_first? hfirst hkind
  · rename_i hnot
    exact hexpanded (by simpa using hnot)

/-- A token with the parts behind it leaves open what the last token among them does. -/
theorem leaves_addToken {w : Word} (h : Printed made (σ.addToken w) u ps o)
    {opened : Option Char} (hnext : w.LeavesBefore opened ps)
    (hps : (∃ ts, ps = Part.ofLiminals ts) ∧ o = none ∨ ((σ.addToken w).run ps).Leaves o) :
    ((σ.addToken w).run ps).Leaves (opened <|> o) := by
  cases ps with
  | nil => exact absurd rfl h.ne_nil
  | cons p ps =>
      cases p with
      | token v =>
          -- nothing is open between tokens
          obtain rfl : opened = none := hnext
          rcases hps with ⟨⟨ts, hts⟩, _⟩ | hps
          · cases ts with
            | nil => cases hts
            | cons t ts => cases hts
          · exact hps
      | liminal t =>
          have hleaves : w.Leaves t opened := hnext
          by_cases hnone : ∃ ts, ps = Part.ofLiminals ts
          · obtain ⟨ts, rfl⟩ := hnone
            have hlast : ((σ.addToken w).run (.liminal t :: Part.ofLiminals ts)).Leaves opened := by
              have hbetween : ((σ.addToken w).run (.liminal t :: Part.ofLiminals ts)).between =
                  t :: ts :=
                Layout.between_run_ofLiminals (σ.addToken w) (t :: ts)
              rcases Layout.group_run_ofLiminals (σ.addToken w) (t :: ts) with hgroup | hgroup
              · -- a statement is not closed behind a mark
                obtain rfl : opened = none := by
                  refine hleaves.unique (w.leaves_of_ne_mark ?_)
                  rintro rfl
                  obtain ⟨_, _, hkept⟩ := h.exists_of_mark rfl
                  cases hgroup.symm.trans hkept
                exact Layout.leaves_of_group_nil hgroup
              · exact Layout.leaves_of_group_cons hgroup hbetween hleaves
            rcases hps with ⟨_, rfl⟩ | hps
            · cases opened <;> exact hlast
            · rw [hps.unique hlast]
              cases opened <;> exact hlast
          · obtain rfl : opened = none := by
              refine hleaves.unique (w.leaves_of_ne_mark ?_)
              rintro rfl
              obtain ⟨ts, hts, _⟩ := h.exists_of_mark rfl
              exact hnone ⟨ts, hts⟩
            rcases hps with ⟨⟨ts, hts⟩, _⟩ | hps
            · cases ts with
              | nil => cases hts
              | cons t' ts => exact absurd ⟨ts, (List.cons.inj hts).2⟩ hnone
            · exact hps

/-- A line leaves open what its last token does, and none if it has no token. -/
theorem leaves (h : Printed made σ u ps o) :
    (∃ ts, ps = Part.ofLiminals ts) ∧ o = none ∨ (σ.run ps).Leaves o := by
  induction h with
  | @ended σ e _ _ => exact .inl ⟨⟨[e], rfl⟩, rfl⟩
  | token _ hsemantic _ hstarts hexpanded h ih =>
      exact .inr (h.leaves_addToken (h.leavesBefore hsemantic hstarts hexpanded) ih)
  | @liminal σ l u ps o _ _ _ _ _ ih =>
      rcases ih with ⟨⟨ts, rfl⟩, ho⟩ | hleaves
      · exact .inl ⟨⟨l.text :: ts, rfl⟩, ho⟩
      · exact .inr hleaves
  | made _ _ _ hleaves h ih => exact .inr (h.leaves_addToken hleaves ih)

end Printed

/-- A word as it is found where it was printed. -/
def Word.written (w : Word) : Word :=
  { w with origin := .written }

def Part.written : Part → Part
  | .token w => .token w.written
  | .liminal t => .liminal t

namespace Layout

/-- The layout of parts as they are found where they were printed. -/
def written (σ : Layout) : Layout :=
  { σ with
    group := σ.group.map Word.written
    seams := σ.seams.map fun q => (q.1.written, q.2.written) }

theorem written_step (σ : Layout) (p : Part) : (σ.step p).written = σ.written.step p.written := by
  cases p with
  | token w =>
      cases hgroup : σ.group with
      | nil => simp [step, Part.written, addToken, written, hgroup]
      | cons v older =>
          simp only [step, Part.written, addToken, written, hgroup]
          split <;> simp
  | liminal t =>
      by_cases hcloses : σ.place.closes (.ofText t) = true
      · cases hgroup : σ.group with
        | nil => simp [step, Part.written, addLiminal, written, hcloses, close, hgroup]
        | cons v older =>
            simp [step, Part.written, addLiminal, written, hcloses, close, hgroup,
              Function.comp_def, Word.written]
      · simp [step, Part.written, addLiminal, written, hcloses]

theorem written_run (σ : Layout) (ps : List Part) :
    (σ.run ps).written = σ.written.run (ps.map Part.written) := by
  induction ps generalizing σ with
  | nil => rfl
  | cons p ps ih => rw [run_cons, ih, List.map_cons, run_cons, written_step]

theorem values_written (σ : Layout) : σ.written.values = σ.values := by
  cases hgroup : σ.group <;> simp [values, close, written, hgroup, Function.comp_def, Word.written]

theorem whole_of_step {σ : Layout} {p : Part} (h : (σ.step p).whole = true) :
    σ.whole = true := by
  cases p with
  | token w => exact h
  | liminal t => exact (Bool.and_eq_true_iff.mp h).1

theorem whole_of_run {σ : Layout} {ps : List Part} (h : (σ.run ps).whole = true) :
    σ.whole = true := by
  induction ps generalizing σ with
  | nil => exact h
  | cons p ps ih => exact whole_of_step (ih h)

/-- Where no invocation was replaced by nothing, liminal text that can be seen is none. -/
theorem ne_name_of_whole {σ : Layout} {t : Text} (h : (σ.addLiminal t).whole = true)
    (hplace : σ.place ≠ .hidden) : Liminal.ofText t ≠ .name := by
  intro hname
  have hnot := (Bool.and_eq_true_iff.mp h).2
  simp [hplace, hname] at hnot

end Layout

namespace Printed

/-- Where each token is a lexeme of the line, the line scans into the parts. -/
theorem exists_scanLine {σ : Layout} {u : Text} {ps : List Part} {o : Option Char}
    (h : Printed (fun _ => False) σ u ps o) (hwhole : (σ.run ps).whole = true) :
    ∃ ls, scanLine none u = .ok ⟨ls, o⟩ ∧
      σ.written.partsOf .empty ls = ps.map Part.written := by
  induction h with
  | @ended σ e hbody hend =>
      have hterminator : Line.terminator e = e := by
        have hwhole := Line.body_append_terminator e
        rwa [hbody, List.nil_append] at hwhole
      refine ⟨[⟨.lineEnd, e⟩], ?_, rfl⟩
      rw [Line.scanLine_none_eq_ok, hbody, Line.scanFresh_nil, hterminator]
      exact ⟨[], rfl, rfl⟩
  | @token σ k w u ps o o' hplace hsemantic _ hstarts _ _ ih =>
      obtain ⟨ls, hscan, hparts⟩ := ih hwhole
      refine ⟨⟨k, w.value⟩ :: ls, hstarts.scanLine hscan, ?_⟩
      have hlexeme : σ.written.lexemeParts .empty ⟨k, w.value⟩ = [.token w.written] := by
        have hvisible : σ.written.place ≠ .hidden := hplace
        simp [Layout.lexemeParts, hsemantic, hvisible, MacroTable.get?, MacroTable.empty,
          Word.written]
      have hnext : σ.written.run [.token w.written] = (σ.addToken w).written :=
        (σ.written_step (.token w)).symm
      rw [Layout.partsOf, hlexeme, hnext, hparts]
      rfl
  | @liminal σ l u ps o hl _ _ hstarts _ ih =>
      obtain ⟨ls, hscan, hparts⟩ := ih hwhole
      have hwholeStep : (σ.addLiminal l.text).whole = true := Layout.whole_of_run hwhole
      refine ⟨l :: ls, hstarts.scanLine hscan, ?_⟩
      have hlexeme : σ.written.lexemeParts .empty l = [.liminal l.text] := by
        cases hsemantic : l.isSemantic with
        | false => exact Layout.lexemeParts_of_not_semantic _ _ hsemantic
        | true =>
            refine Layout.lexemeParts_of_hidden _ ?_ l
            by_contra hvisible
            rcases hl hsemantic with hhidden | hname
            · exact hvisible hhidden
            · exact Layout.ne_name_of_whole hwholeStep hvisible hname
      have hnext : σ.written.run [.liminal l.text] = (σ.addLiminal l.text).written :=
        (σ.written_step (.liminal l.text)).symm
      rw [Layout.partsOf, hlexeme, hnext, hparts]
      rfl
  | made hmade => exact hmade.elim

end Printed

end FreeForm
