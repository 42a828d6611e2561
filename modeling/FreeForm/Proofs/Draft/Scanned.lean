import FreeForm.Configuration
import FreeForm.Proofs.Draft.Printed

namespace FreeForm

/-!
# Lines that scan are printed

A line that scans is printed as its lexemes: a token stands for itself or, if it names a macro, for
the words of the macro body. Only where a continuation mark hides the rest of the line must be known
that no string is left open there, for nobody will ever close it.
-/

open Lexeme

/-- What stands behind the next continuation mark. -/
def Lexeme.behindMark (ls : List Lexeme) : List Lexeme :=
  (ls.dropWhile (!·.isContinuation)).drop 1

theorem Lexeme.behindMark_suffix (ls : List Lexeme) : behindMark ls <:+ ls :=
  (List.drop_suffix 1 _).trans (List.dropWhile_suffix _)

/-- No string is left open behind some lexemes, from whichever of them on they are scanned. -/
def Line.Closes (ls : List Lexeme) : Prop :=
  ∀ ms, ms <:+ ls → ∀ o, scanLine none (concat ms) = .ok ⟨ms, o⟩ → o = none

theorem Line.Closes.suffix {ls ms : List Lexeme} (h : Closes ls) (hms : ms <:+ ls) : Closes ms :=
  fun _ hsuffix => h _ (hsuffix.trans hms)

/-- The lexemes of a line that a continuation mark hides: those behind the mark that its content ends
with. -/
def Lexeme.concealed (ls : List Lexeme) : List Lexeme :=
  behindMark ((ls.dropWhile (·.isLiminal)).drop 1)

/-- What a continuation mark hides of a line leaves no string open. -/
def Line.Sealed (ls : List Lexeme) : Prop :=
  ∀ s, scanLine none (concat (concealed ls)) = .ok s → s.openDelimiter = none

instance (ls : List Lexeme) : Decidable (Line.Sealed ls) :=
  match hscan : scanLine none (concat (concealed ls)) with
  | .error _ => .isTrue fun s hs => by rw [hscan] at hs; cases hs
  | .ok s => decidable_of_iff (s.openDelimiter = none)
      ⟨fun h _ hs => by rw [hscan] at hs; cases hs; exact h, fun h => h s hscan⟩

theorem Lexeme.concealed_cons_of_liminal {l : Lexeme} (hl : l.isLiminal = true)
    (ls : List Lexeme) : concealed (l :: ls) = concealed ls := by
  rw [concealed, List.dropWhile_cons_of_pos (by simp [hl]), concealed]

theorem Lexeme.concealed_cons_of_not {l : Lexeme} (hl : l.isLiminal = false) (ls : List Lexeme) :
    concealed (l :: ls) = behindMark ls := by
  rw [concealed, List.dropWhile_cons_of_neg (by simp [hl]), List.drop_one, List.tail_cons]

theorem Lexeme.concealed_suffix (ls : List Lexeme) : concealed ls <:+ ls :=
  (behindMark_suffix _).trans ((List.drop_suffix 1 _).trans (List.dropWhile_suffix _))

/-- What closes as a whole closes from each of its lexemes on. -/
theorem Line.Sealed.closes {ls : List Lexeme} (h : Sealed ls) {t : Text} {rest : List Lexeme}
    {o : Option Char} (hscan : scanLine none t = .ok ⟨rest, o⟩) (hrest : concealed ls <:+ rest) :
    Closes (concealed ls) := by
  intro ms hms o' hscan'
  have hne : ms ≠ [] := by
    rintro rfl
    obtain ⟨front, _, hfront⟩ := scanLine_none_eq_ok.mp hscan'
    simp at hfront
  obtain ⟨behind, hbehind⟩ := hms
  obtain ⟨front, rfl⟩ := hrest
  obtain ⟨u, o₁, o₂, _, hu, _, _⟩ := exists_scanLine_of_append hscan (by simp [← hbehind, hne])
  obtain rfl : o₂ = none := h _ (by rwa [concat_lexemes_scanLine hu])
  rw [← hbehind] at hu
  obtain ⟨v, o₃, o₄, _, hv, hnone, _⟩ := exists_scanLine_of_append hu hne
  rw [concat_lexemes_scanLine hv, hv] at hscan'
  cases hscan'
  cases o₃ with
  | none => exact hnone.symm
  | some q => cases hnone

/-- Nothing is left open by what is hidden of a line, from a place of it on. -/
def LinePlace.Seals (p : LinePlace) (ls : List Lexeme) : Prop :=
  match p with
  | .hidden => Line.Closes ls
  | .inside | .stray => Line.Closes (behindMark ls)
  | .margin | .front => Line.Closes (concealed ls)

theorem Lexeme.behindMark_cons_of_not {l : Lexeme} (hl : l.isContinuation = false)
    (ls : List Lexeme) : behindMark (l :: ls) = behindMark ls := by
  rw [behindMark, List.dropWhile_cons_of_pos (by simp [hl]), behindMark]

theorem Lexeme.behindMark_cons_of_mark {l : Lexeme} (hl : l.isContinuation = true)
    (ls : List Lexeme) : behindMark (l :: ls) = ls := by
  rw [behindMark, List.dropWhile_cons_of_neg (by simp [hl]), List.drop_one, List.tail_cons]

namespace LinePlace

variable {p : LinePlace} {l : Lexeme} {ls : List Lexeme}

/-- Behind a token a line goes on inside. -/
theorem Seals.inside (h : p.Seals (l :: ls)) (hp : p ≠ .hidden) (hl : l.isSemantic = true) :
    LinePlace.inside.Seals ls := by
  obtain ⟨hliminal, hmark⟩ := Lexeme.not_of_isSemantic hl
  cases p with
  | hidden => exact absurd rfl hp
  | inside => rwa [Seals, behindMark_cons_of_not hmark] at h
  | stray => rwa [Seals, behindMark_cons_of_not hmark] at h
  | margin => rwa [Seals, concealed_cons_of_not hliminal] at h
  | front => rwa [Seals, concealed_cons_of_not hliminal] at h

/-- Behind liminal text that is neither a mark nor hidden a line goes on where it was, or behind a
separator. -/
theorem Seals.next_liminal (h : p.Seals (l :: ls)) (hp : p ≠ .hidden) (hl : l.isLiminal = true)
    {k : Liminal} (hk : k = .blank ∨ k = .comment ∨ k = .directive ∨ k = .separator)
    (opened : Bool) : (p.next opened k).Seals ls := by
  have hmark : l.isContinuation = false := by
    cases hrole : l.role <;> simp_all [Lexeme.isContinuation, Lexeme.isLiminal]
  have hbehind : p = .inside ∨ p = .stray → Line.Closes (behindMark ls) := by
    rintro (rfl | rfl) <;> rwa [Seals, behindMark_cons_of_not hmark] at h
  have hfront : p = .margin ∨ p = .front → Line.Closes (concealed ls) := by
    rintro (rfl | rfl) <;> rwa [Seals, concealed_cons_of_liminal hl] at h
  cases p with
  | hidden => exact absurd rfl hp
  | inside =>
      have hclosed := hbehind (.inl rfl)
      rcases hk with rfl | rfl | rfl | rfl
      · exact hclosed
      · exact hclosed
      · exact hclosed
      · cases opened <;> exact hclosed
  | stray =>
      have hclosed := hbehind (.inr rfl)
      rcases hk with rfl | rfl | rfl | rfl <;> exact hclosed
  | margin =>
      have hclosed := hfront (.inl rfl)
      rcases hk with rfl | rfl | rfl | rfl <;> exact hclosed
  | front =>
      have hclosed := hfront (.inr rfl)
      rcases hk with rfl | rfl | rfl | rfl <;> exact hclosed

/-- Behind a mark a line is hidden, but for a mark at its front. -/
theorem Seals.next_mark (h : p.Seals (l :: ls)) (hl : l.isContinuation = true) (opened : Bool) :
    (p.next opened .mark).Seals ls := by
  have hliminal : l.isLiminal = false := by
    cases hrole : l.role <;> simp_all [Lexeme.isContinuation, Lexeme.isLiminal]
  cases p with
  | hidden => exact Line.Closes.suffix h (List.suffix_cons l ls)
  | inside => rwa [Seals, behindMark_cons_of_mark hl] at h
  | stray =>
      rw [Seals, behindMark_cons_of_mark hl] at h
      exact h.suffix (behindMark_suffix ls)
  | margin => rwa [Seals, concealed_cons_of_not hliminal] at h
  | front => rwa [Seals, concealed_cons_of_not hliminal] at h

theorem Seals.next (h : p.Seals (l :: ls)) (hkind : l.kind ≠ .lineEnd) (htold : l.Told)
    (hl : l.isSemantic = true → p = .hidden ∨ Liminal.ofText l.text = .name) (opened : Bool) :
    (p.next opened (.ofText l.text)).Seals ls := by
  obtain ⟨hwhite, hcomment, hmark, hseparator, hend⟩ := htold.role hkind
  by_cases hp : p = .hidden
  · subst hp
    rw [Layout.next_hidden hend]
    exact Line.Closes.suffix h (List.suffix_cons l ls)
  · cases hrole : l.role with
    | whitespace =>
        exact h.next_liminal hp (by simp [Lexeme.isLiminal, hrole]) (.inl (hwhite hrole)) opened
    | comment =>
        refine h.next_liminal hp (by simp [Lexeme.isLiminal, hrole]) ?_ opened
        rw [hcomment hrole]
        cases l.isDirective
        · exact .inr (.inl rfl)
        · exact .inr (.inr (.inl rfl))
    | separator =>
        exact h.next_liminal hp (by simp [Lexeme.isLiminal, hrole])
          (.inr (.inr (.inr (hseparator hrole)))) opened
    | continuation =>
        rw [hmark hrole]
        exact h.next_mark (by simp [Lexeme.isContinuation, hrole]) opened
    | semantic =>
        have hsemantic : l.isSemantic = true := by simp [Lexeme.isSemantic, hrole]
        have hinside := h.inside hp hsemantic
        rw [(hl hsemantic).resolve_left hp]
        cases p <;> first | exact hinside | exact absurd rfl hp

end LinePlace

/-- A macro has the name of an identifier. -/
def MacroTable.Named (macros : MacroTable) : Prop :=
  ∀ name body, macros.get? name = some body → Configuration.isIdentifier name = true

theorem Liminal.ofText_of_isIdentifier {name : Text}
    (h : Configuration.isIdentifier name = true) : ofText name = .name := by
  cases name with
  | nil => cases h
  | cons c rest =>
      obtain ⟨hstart, hrest⟩ := Bool.and_eq_true_iff.mp h
      have hne : ∀ d, isIdentifierStart d = false → c ≠ d := by
        rintro d hd rfl
        exact Bool.false_ne_true (hd.symm.trans hstart)
      have hfeed : '\n' ∉ c :: rest := by
        intro hmem
        rcases List.mem_cons.mp hmem with heq | hmem
        · exact hne '\n' (by decide) heq.symm
        · exact absurd (List.all_eq_true.mp hrest '\n' hmem) (by decide)
      have hblank : isBlank c = false := by
        simp [isBlank, hne ' ' (by decide), hne '\t' (by decide)]
      have hmark : c :: rest ≠ Continuation.mark := fun heq =>
        hne _ (by decide) (List.cons.inj heq).1
      have hseparator : c :: rest ≠ [';'] := fun heq =>
        hne _ (by decide) (List.cons.inj heq).1
      have hname : isIdentifierStart c = true := hstart
      rw [Liminal.ofText_eq (List.cons_ne_nil c rest) hfeed, if_neg hmark, if_neg hseparator,
        List.dropWhile_cons_of_neg (by simp [hblank])]
      dsimp only
      rw [if_neg (hne _ (by decide)), if_pos hname]

theorem MacroTable.Named.emptiesNamed {macros : MacroTable} (h : macros.Named) :
    macros.EmptiesNamed :=
  fun _ hget => Liminal.ofText_of_isIdentifier (h _ _ hget)

/-- No string starts as an identifier does. -/
theorem Line.Starts.eq_none_of_isIdentifier {l : Lexeme} {u : Text} {o : Option Char}
    (h : Starts l u o) (hl : Configuration.isIdentifier l.text = true) : o = none := by
  by_contra hopen
  obtain ⟨q, t, hq, rfl, _⟩ := exists_of_first?_string h.first (opened_of_first? h.first hopen).1
  have hstart := (Bool.and_eq_true_iff.mp hl).1
  rcases hq with rfl | rfl <;> cases hstart

namespace Layout

variable {macros : MacroTable} {σ : Layout}

theorem leavesBefore_of_expanded {w : Word} (h : w.origin = .expanded) (ps : List Part) :
    w.LeavesBefore none ps := by
  cases ps with
  | nil => rfl
  | cons p ps =>
      cases p with
      | token => rfl
      | liminal t => exact (if_neg fun hmark => hmark.2 h).mpr rfl

/-- The words of a macro body are printed where its name stands. -/
theorem printed_of_body {v : Text} (hsource : ∃ l r o, Line.Piece.first? (Line.body v) =
      some ⟨l, r, o⟩ ∧ l.isSemantic = true) {w : Word} {ws : List Word}
    (hwords : ∀ x ∈ w :: ws, x.origin = .expanded) (hplace : σ.place ≠ .hidden) {u : Text}
    {ps : List Part} {o : Option Char}
    (h : Printed (·.origin ≠ .written) (σ.run ((w :: ws).map .token)) u ps o) :
    Printed (·.origin ≠ .written) σ v ((w :: ws).map .token ++ ps) o := by
  induction ws generalizing σ w with
  | nil =>
      have hw := hwords w List.mem_cons_self
      exact .made (by simp [hw]) hplace hsource (leavesBefore_of_expanded hw ps) h
  | cons w' ws ih =>
      obtain ⟨hw, hws⟩ := List.forall_mem_cons.mp hwords
      have hinside : (σ.addToken w).place ≠ .hidden := by
        intro hhidden
        cases hhidden
      exact .made (by simp [hw]) hplace hsource (leavesBefore_of_expanded hw _)
        (ih hws hinside h)

/-- A physical line that scans is printed as its lexemes. -/
theorem printed_of_scanLine (hmacros : macros.Named) {u : Text} (hfeed : '\n' ∉ Line.body u)
    {ls : List Lexeme} (hrow : Row ls) {o : Option Char} (hscan : scanLine none u = .ok ⟨ls, o⟩)
    (hseals : σ.place.Seals ls) :
    Printed (·.origin ≠ .written) σ u (σ.partsOf macros ls) o := by
  induction hrow generalizing σ u o with
  | @last e he htold =>
      obtain ⟨front, hfront, hend⟩ := Line.scanLine_none_eq_ok.mp hscan
      have hlast : [] ++ [e] = front ++ [⟨.lineEnd, Line.terminator u⟩] := hend
      obtain ⟨rfl, hlast⟩ := List.append_inj' hlast rfl
      obtain rfl := List.singleton_inj.mp hlast
      have hbody : Line.body u = [] := by
        have hspelled := Line.scanFresh_append (Line.body u)
        rw [hfront] at hspelled
        exact hspelled.symm
      have hterminator : Line.terminator u = u := by
        have hwhole := Line.body_append_terminator u
        rwa [hbody, List.nil_append] at hwhole
      rw [hbody, Line.scanFresh_nil] at hfront
      obtain rfl : none = o := congrArg Line.Scan.openDelimiter hfront
      have hparts : σ.partsOf macros [⟨.lineEnd, Line.terminator u⟩] = [.liminal u] := by
        rw [hterminator]
        rfl
      rw [hparts]
      exact .ended hbody (hterminator ▸ htold)
  | @cons l ls hl htold hrow ih =>
      have hne : ls ≠ [] := by
        rintro rfl
        cases hrow
      obtain ⟨u, o₁, o₂, rfl, hstarts, hrest, rfl⟩ := Line.exists_starts_of_scanLine hscan hne
      rw [hstarts.content, List.mem_append, not_or] at hfeed
      have hsource : l.isSemantic = true → ∃ l' r o, Line.Piece.first? (Line.body (l.text ++ u)) =
          some ⟨l', r, o⟩ ∧ l'.isSemantic = true := fun hsemantic =>
        ⟨l, _, o₁, by rw [hstarts.content, hstarts.first], hsemantic⟩
      have hliminal : (l.isSemantic = true → σ.place = .hidden ∨ Liminal.ofText l.text = .name) →
          o₁ = none → Printed (·.origin ≠ .written) σ (l.text ++ u)
            (.liminal l.text :: (σ.addLiminal l.text).partsOf macros ls) (o₁ <|> o₂) := by
        rintro hname rfl
        refine .liminal hname (htold.role hl).2.2.2.2 hfeed.1 hstarts (ih hfeed.2 hrest ?_)
        exact hseals.next hl htold hname _
      by_cases hvisible : l.isSemantic = true ∧ σ.place ≠ .hidden
      · obtain ⟨hsemantic, hplace⟩ := hvisible
        have hinside := hseals.inside hplace hsemantic
        rw [partsOf, lexemeParts, if_pos (by simp [hsemantic, hplace])]
        cases hget : macros.get? l.text with
        | none =>
            exact .token (w := (⟨l.text, .written⟩ : Word)) hplace hsemantic hfeed.1 hstarts
              (fun h => by cases h) (ih hfeed.2 hrest hinside)
        | some body =>
            have hname := hmacros _ _ hget
            obtain rfl : o₁ = none := hstarts.eq_none_of_isIdentifier hname
            cases body with
            | nil => exact hliminal (fun _ => .inr (Liminal.ofText_of_isIdentifier hname)) rfl
            | cons m ms =>
                have hwords : ∀ w ∈ (m :: ms).map fun m => (⟨m.text, .expanded⟩ : Word),
                    w.origin = .expanded := by
                  intro w hw
                  obtain ⟨_, _, rfl⟩ := List.mem_map.mp hw
                  rfl
                have hbehind : (σ.run (((m :: ms).map fun m =>
                    (⟨m.text, .expanded⟩ : Word)).map .token)).place = .inside :=
                  (run_tokens (.inl (by simp))).1
                exact printed_of_body (hsource hsemantic) hwords hplace
                  (ih hfeed.2 hrest (hbehind.symm ▸ hinside))
      · have hparts : σ.lexemeParts macros l = [.liminal l.text] := by
          rw [lexemeParts, if_neg]
          simpa using hvisible
        rw [partsOf, hparts]
        refine hliminal (fun hsemantic => .inl ?_) ?_
        · by_contra hplace
          exact hvisible ⟨hsemantic, hplace⟩
        · by_contra hopen
          have hkind := (Line.opened_of_first? hstarts.first hopen).1
          have hsemantic : l.isSemantic = true := by
            dsimp only at hkind
            simp [Lexeme.isSemantic, Lexeme.role, hkind, Kind.role]
          have hplace : σ.place = .hidden := by
            by_contra hplace
            exact hvisible ⟨hsemantic, hplace⟩
          -- what is hidden leaves nothing open, and its first lexeme does not either
          rw [hplace] at hseals
          have hnone := hseals _ (List.suffix_refl _) (o₁ <|> o₂) (by
            rw [concat_lexemes_scanLine hscan]
            exact hscan)
          cases o₁ with
          | none => exact hopen rfl
          | some q => cases hnone

end Layout

end FreeForm
