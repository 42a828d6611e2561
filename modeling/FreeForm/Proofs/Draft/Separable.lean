import FreeForm.Proofs.Draft.Scanned
import FreeForm.Proofs.Scan.LineFront

namespace FreeForm

/-!
# Parts that can be told apart

A token that stood in the source is read again where it is printed. Of one that was made of
something else, and of the tokens that it follows at once, this must be asked for: that each is the
first lexeme of what is printed from it on. It is enough to look as far as the next liminal text, so
that the tokens and the blanks between two liminal texts are looked at for themselves.
-/

open Lexeme

namespace Part

/-- The text of some parts up to the end of the line. -/
def lineRest : List Part → Text
  | [] => []
  | .token w :: ps => w.value ++ lineRest ps
  | .liminal t :: ps => if Liminal.ofText t = .lineEnd then t else t ++ lineRest ps

/-- What a token is printed in front of: the tokens that follow at once and the liminal text behind
them, and all of the line if that is a mark. -/
def behind : List Part → Text
  | [] => []
  | .token w :: ps => w.value ++ behind ps
  | .liminal t :: ps => if t = Continuation.mark then t ++ lineRest ps else t

/-- Whether a token that did not stand in the source is among those in front of the next liminal
text. -/
def isChanged : List Part → Bool
  | .token w :: ps => w.origin != .written || isChanged ps
  | _ => false

end Part

/-- A word is the first lexeme of a text that starts with it. One from a macro body leaves no string
open. -/
def Word.LeadsOff (w : Word) (behind : Text) : Prop :=
  '\n' ∉ w.value ∧ ∃ p ∈ Line.Piece.first? (Line.body (w.value ++ behind)),
    p.lexeme.text = w.value ∧ p.lexeme.isSemantic = true ∧
      (w.origin = .expanded → p.opened = none)

instance (w : Word) (behind : Text) : Decidable (w.LeadsOff behind) :=
  inferInstanceAs (Decidable (_ ∧ _))

/-- Each token in front of one that was made of something else is read where it is printed. -/
def Part.Separable : List Part → Prop
  | [] => True
  | .token w :: ps =>
      (isChanged (.token w :: ps) = true → w.LeadsOff (behind ps)) ∧ Separable ps
  | .liminal _ :: ps => Separable ps

instance : DecidablePred Part.Separable
  | [] => .isTrue trivial
  | .token _ :: ps =>
      have := instDecidablePredListPartSeparable ps
      inferInstanceAs (Decidable (_ ∧ _))
  | .liminal _ :: ps => instDecidablePredListPartSeparable ps

theorem Word.LeadsOff.exists_starts {w : Word} {u : Text} (h : w.LeadsOff u) :
    ∃ k o, Lexeme.isSemantic ⟨k, w.value⟩ = true ∧ Line.Starts ⟨k, w.value⟩ u o ∧
      (w.origin = .expanded → o = none) := by
  obtain ⟨_, ⟨⟨k, t⟩, r, o⟩, hfirst, htext, hsemantic, hexpanded⟩ := h
  obtain rfl : t = w.value := htext
  have happ := Line.Piece.first?_append hfirst
  obtain ⟨rfl, _⟩ := Line.body_of_append happ.symm
  refine ⟨k, o, hsemantic, ⟨happ.symm, ?_⟩, hexpanded⟩
  rw [happ]
  exact hfirst

namespace Printed

variable {made : Word → Prop} {σ : Layout} {u v : Text} {ps : List Part} {o o' : Option Char}

/-- A line whose tokens are lexemes of it is the text of its parts. -/
theorem flatMap_text (h : Printed (fun _ => False) σ u ps o) : ps.flatMap Part.text = u := by
  induction h with
  | @ended σ e _ _ => simp [Part.text]
  | token _ _ _ _ _ _ ih => rw [List.flatMap_cons, ih]; rfl
  | liminal _ _ _ _ _ ih => rw [List.flatMap_cons, ih]; rfl
  | made hmade => exact hmade.elim

theorem lineRest_append (h : Printed made σ u ps o) (others : List Part) :
    Part.lineRest (ps ++ others) = ps.flatMap Part.text := by
  induction h with
  | ended _ hend => simp [Part.lineRest, hend, Part.text]
  | token _ _ _ _ _ _ ih => simp [Part.lineRest, ih, Part.text]
  | liminal _ hend _ _ _ ih => simp [Part.lineRest, hend, ih, Part.text]
  | made _ _ _ _ _ ih => simp [Part.lineRest, ih, Part.text]

theorem lineRest_eq (h : Printed made σ u ps o) : Part.lineRest ps = ps.flatMap Part.text := by
  have hrest := h.lineRest_append []
  rwa [List.append_nil] at hrest

theorem ne_mark_of_lineEnd {e : Text} (h : Liminal.ofText e = .lineEnd) :
    e ≠ Continuation.mark := by
  rintro rfl
  cases h

theorem behind_append (h : Printed made σ u ps o) (others : List Part) :
    Part.behind (ps ++ others) = Part.behind ps := by
  induction h with
  | ended _ hend => simp [Part.behind, ne_mark_of_lineEnd hend]
  | token _ _ _ _ _ _ ih => simp [Part.behind, ih]
  | liminal _ _ _ _ h _ => simp [Part.behind, h.lineRest_append, h.lineRest_eq]
  | made _ _ _ _ _ ih => simp [Part.behind, ih]

theorem isChanged_append (h : Printed made σ u ps o) (others : List Part) :
    Part.isChanged (ps ++ others) = Part.isChanged ps := by
  induction h with
  | ended => rfl
  | token _ _ _ _ _ _ ih => simp [Part.isChanged, ih]
  | liminal => rfl
  | made _ _ _ _ _ ih => simp [Part.isChanged, ih]

/-- What is asked of the parts of a line does not look behind its end. -/
theorem separable_of_append (h : Printed made σ u ps o) {others : List Part}
    (hparts : Part.Separable (ps ++ others)) : Part.Separable ps := by
  induction h with
  | ended => trivial
  | token _ _ _ _ _ h ih =>
      obtain ⟨hleads, hparts⟩ := hparts
      refine ⟨?_, ih hparts⟩
      simpa [Part.isChanged, h.isChanged_append, h.behind_append] using hleads
  | liminal _ _ _ _ _ ih => exact ih hparts
  | made _ _ _ _ h ih =>
      obtain ⟨hleads, hparts⟩ := hparts
      refine ⟨?_, ih hparts⟩
      simpa [Part.isChanged, h.isChanged_append, h.behind_append] using hleads

/-- A token is a lexeme of the line, if it was not made. -/
theorem token_cases {w : Word} (h : Printed made σ u (.token w :: ps) o) :
    (∃ k v opened o', u = w.value ++ v ∧ Lexeme.isSemantic ⟨k, w.value⟩ = true ∧
      Line.Starts ⟨k, w.value⟩ v opened ∧ Printed made (σ.addToken w) v ps o') ∨ made w := by
  generalize hps : Part.token w :: ps = ps' at h
  cases h with
  | ended => cases hps
  | liminal => cases hps
  | @token _ k _ v _ o o' _ hsemantic _ hstarts _ h =>
      obtain ⟨hw, rfl⟩ := List.cons.inj hps
      obtain rfl := Part.token.inj hw
      exact .inl ⟨k, v, o, o', rfl, hsemantic, hstarts, h⟩
  | made hmade =>
      obtain ⟨hw, _⟩ := List.cons.inj hps
      obtain rfl := Part.token.inj hw
      exact .inr hmade

theorem head_of_starts {k : Kind} {t : Text} (hsemantic : Lexeme.isSemantic ⟨k, t⟩ = true)
    (hstarts : Line.Starts ⟨k, t⟩ u o) :
    t ≠ [] ∧ ∀ c ∈ t.head?, isBlank c = false ∧ c ≠ continuationMark := by
  have hfirst := hstarts.first
  have hne := Line.Piece.first?_text_ne_nil hfirst
  dsimp only at hne hfirst
  refine ⟨hne, fun c hc => ?_⟩
  obtain ⟨d, rest, rfl⟩ := List.exists_cons_of_ne_nil hne
  obtain rfl := Option.some.inj hc
  exact Line.head_of_first? hfirst hsemantic

theorem head?_ne_mark {t : Text} (h : ∀ c ∈ t.head?, isBlank c = false ∧ c ≠ continuationMark) :
    t.head? ≠ some continuationMark :=
  fun hhead => (h _ hhead).2 rfl

/-- Liminal text that can be seen is no invocation. -/
theorem isSemantic_of_whole {l : Lexeme}
    (hl : l.isSemantic = true → σ.place = .hidden ∨ Liminal.ofText l.text = .name)
    (hplace : σ.place ≠ .hidden) (hwhole : ((σ.addLiminal l.text).run ps).whole = true) :
    l.isSemantic = false := by
  rw [Bool.eq_false_iff]
  intro hsemantic
  have hname := (hl hsemantic).resolve_left hplace
  exact Layout.ne_name_of_whole (Layout.whole_of_run hwhole) hplace hname

/-- Two lines that go on with liminal text agree, unless it is a mark. -/
theorem agree_of_liminal {l : Lexeme} {x r r' : Text} (hl : l.isSemantic = false)
    (hmark : l.text ≠ Continuation.mark) (hstarts : Line.Starts l x o)
    (hu : Line.body u = l.text ++ r) (hv : Line.body v = l.text ++ r') : Line.Agree u v := by
  obtain ⟨hends, hhead⟩ := Line.endsTokens_of_first? hstarts.first hl
  have hne := Line.Piece.first?_text_ne_nil hstarts.first
  exact .upTo (x := []) hne hends (hhead hmark) hu hv

/-- What a token is printed in front of agrees with the line. -/
theorem agree_behind (h : Printed (fun _ => False) σ u ps o) (hplace : σ.place = .inside)
    (hwhole : (σ.run ps).whole = true) : Line.Agree (Part.behind ps) u := by
  induction h with
  | ended _ hend => exact .same (by simp [Part.behind, ne_mark_of_lineEnd hend])
  | token _ hsemantic _ hstarts _ _ ih =>
      obtain ⟨hne, hhead⟩ := head_of_starts hsemantic hstarts
      exact (ih rfl hwhole).append (head?_ne_mark hhead) hne
  | @liminal σ l u ps o hl _ hfeed hstarts h _ =>
      rw [Part.behind]
      split
      · exact .same (by rw [h.lineRest_eq, h.flatMap_text])
      · rename_i hmark
        have hvisible : σ.place ≠ .hidden := by
          rw [hplace]
          decide
        have hnot := isSemantic_of_whole hl hvisible hwhole
        have hbody : Line.body l.text = l.text ++ [] := by
          rw [Line.body_of_not_mem hfeed, List.append_nil]
        exact agree_of_liminal hnot hmark hstarts hbody hstarts.content
  | made hmade => exact hmade.elim

/-- A line whose tokens all stood in the source agrees with what is printed of it. -/
theorem agree (h : Printed made σ u ps o) (hmade : ∀ w, made w → w.origin ≠ .written)
    (h' : Printed (fun _ => False) σ v ps o') (hplace : σ.place = .inside)
    (hwhole : (σ.run ps).whole = true) (hchanged : Part.isChanged ps = false) :
    Line.Agree u v := by
  induction h generalizing v o' with
  | ended _ hend =>
      rcases h'.liminal_cases with ⟨_, _, _, _, rfl⟩ | ⟨_, _, _, _, hnot, _⟩
      · exact .same rfl
      · exact absurd hend hnot
  | token _ hsemantic _ hstarts _ _ ih =>
      rcases h'.token_cases with ⟨_, v, _, _, rfl, _, _, h'⟩ | hfalse
      · obtain ⟨hne, hhead⟩ := head_of_starts hsemantic hstarts
        obtain ⟨_, hchanged⟩ := Bool.or_eq_false_iff.mp hchanged
        exact (ih h' rfl hwhole hchanged).append (head?_ne_mark hhead) hne
      · exact hfalse.elim
  | @liminal σ l u ps o hl hend hfeed hstarts h _ =>
      rcases h'.liminal_cases with ⟨_, _, hlast, _⟩ | ⟨_, v, rfl, hstarts', _, h'⟩
      · exact absurd hlast hend
      · by_cases hmark : l.text = Continuation.mark
        · have hhidden : (σ.addLiminal l.text).place = .hidden := by
            rw [Layout.place_addLiminal, hplace, hmark]
            rfl
          obtain ⟨_, _, htext, _⟩ := h.exists_of_hidden hhidden
          exact .same (by rw [← htext, h'.flatMap_text])
        · have hvisible : σ.place ≠ .hidden := by
            rw [hplace]
            decide
          exact agree_of_liminal (isSemantic_of_whole hl hvisible hwhole) hmark hstarts
            hstarts.content hstarts'.content
  | made hw =>
      have hnot := hmade _ hw
      simp [Part.isChanged, hnot] at hchanged

/-- There is content in a line unless nothing of it is left to print. -/
theorem body_ne_nil (h : Printed made σ u ps o) :
    (ps = [.liminal u] ∧ Liminal.ofText u = .lineEnd) ∨ Line.body u ≠ [] := by
  cases h with
  | ended _ hend => exact .inl ⟨rfl, hend⟩
  | token _ _ _ hstarts _ _ =>
      rw [hstarts.content]
      exact .inr (List.append_ne_nil_of_left_ne_nil (Line.Piece.first?_text_ne_nil hstarts.first) _)
  | liminal _ _ _ hstarts _ =>
      rw [hstarts.content]
      exact .inr (List.append_ne_nil_of_left_ne_nil (Line.Piece.first?_text_ne_nil hstarts.first) _)
  | made _ _ hsource _ _ =>
      obtain ⟨_, _, _, hfirst, _⟩ := hsource
      refine .inr fun hnil => ?_
      rw [hnil] at hfirst
      cases hfirst

/-- Liminal text that is not hidden is read again where it is printed. -/
theorem starts_of_liminal {l : Lexeme} (hl : l.isSemantic = false) (hstarts : Line.Starts l u none)
    (h : Printed made σ u ps o) (h' : Printed (fun _ => False) σ v ps o') :
    Line.Starts l v none := by
  rcases h.body_ne_nil with ⟨rfl, hend⟩ | hu
  · have htext := h'.flatMap_text
    obtain rfl : u = v := by simpa [Part.text] using htext
    exact hstarts
  · have hv : Line.body v ≠ [] := by
      rcases h'.body_ne_nil with ⟨rfl, hend⟩ | hv
      · rcases h.liminal_cases with ⟨_, _, _, _, rfl⟩ | ⟨_, _, _, _, hnot, _⟩
        · exact hu
        · exact absurd hend hnot
      · exact hv
    refine hstarts.liminal hl hu hv fun hkind => ?_
    cases ps with
    | nil => exact absurd rfl h.ne_nil
    | cons p ps =>
        cases p with
        | token w =>
            rcases h'.token_cases with ⟨_, v, _, _, rfl, hsemantic, hw, _⟩ | hfalse
            · obtain ⟨hne, hhead⟩ := head_of_starts hsemantic hw
              rw [hw.content, List.head?_append_of_ne_nil _ hne]
              exact fun c hc => (hhead c hc).1
            · exact hfalse.elim
        | liminal t =>
            -- blanks are followed by what they were followed by
            rcases h.liminal_cases with ⟨_, hnil, _, _, rfl⟩ | ⟨_, u, rfl, ht, hnot, _⟩
            · exact absurd hnil hu
            rcases h'.liminal_cases with ⟨_, _, hend, _⟩ | ⟨_, v, rfl, ht', _⟩
            · exact absurd hend hnot
            obtain ⟨k, text⟩ := l
            obtain rfl : k = .whitespace := hkind
            have hblank := Line.head_of_first?_whitespace hstarts.first
            have hne : t ≠ [] := Line.Piece.first?_text_ne_nil ht.first
            rw [ht.content, List.head?_append_of_ne_nil _ hne] at hblank
            rwa [ht'.content, List.head?_append_of_ne_nil _ hne]

/-- A line is printed so that its tokens are lexemes again. -/
theorem exists_printed (h : Printed made σ u ps o) (hmade : ∀ w, made w → w.origin ≠ .written)
    (hparts : Part.Separable ps) (hwhole : (σ.run ps).whole = true) :
    ∃ v o', Printed (fun _ => False) σ v ps o' := by
  induction h with
  | @ended _ e hbody hend => exact ⟨e, none, .ended hbody hend⟩
  | @token σ k w u ps o o' hplace hsemantic hfeed hstarts _ h ih =>
      obtain ⟨hleads, hparts⟩ := hparts
      obtain ⟨v, o'', h'⟩ := ih hparts hwhole
      cases hchanged : Part.isChanged (.token w :: ps) with
      | true =>
          obtain ⟨k', opened, hsemantic', hagain, hexpanded'⟩ := (hleads hchanged).exists_starts
          exact ⟨_, _, .token hplace hsemantic' hfeed (hagain.agree (h'.agree_behind rfl hwhole))
            hexpanded' h'⟩
      | false =>
          obtain ⟨hw, hps⟩ := Bool.or_eq_false_iff.mp hchanged
          have hwritten : w.origin = .written := by simpa using hw
          have hagain := hstarts.agree (h.agree hmade h' rfl hwhole hps)
          refine ⟨_, _, .token hplace hsemantic hfeed hagain (fun hnot => ?_) h'⟩
          rw [hwritten] at hnot
          cases hnot
  | @liminal σ l u ps o hl hend hfeed hstarts h ih =>
      obtain ⟨v, o', h'⟩ := ih hparts hwhole
      refine ⟨_, _, .liminal hl hend hfeed ?_ h'⟩
      by_cases hplace : σ.place = .hidden
      · have hhidden : (σ.addLiminal l.text).place = .hidden := by
          rw [Layout.place_addLiminal, hplace, Layout.next_hidden hend]
        obtain ⟨_, _, htext, _⟩ := h.exists_of_hidden hhidden
        rwa [← h'.flatMap_text, htext]
      · exact starts_of_liminal (isSemantic_of_whole hl hplace hwhole) hstarts h h'
  | @made σ w u u' ps o o' hw hplace _ _ _ ih =>
      obtain ⟨hleads, hparts⟩ := hparts
      obtain ⟨v, o'', h'⟩ := ih hparts hwhole
      have hword := hleads (by simp [Part.isChanged, hmade w hw])
      obtain ⟨k, opened, hsemantic, hstarts, hexpanded⟩ := hword.exists_starts
      exact ⟨_, _, .token hplace hsemantic hword.1 (hstarts.agree (h'.agree_behind rfl hwhole))
        hexpanded h'⟩

end Printed

end FreeForm
