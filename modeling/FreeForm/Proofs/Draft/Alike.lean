import FreeForm.Proofs.Draft.Bare
import FreeForm.Proofs.Scan.Terminators

namespace FreeForm

/-!
# Drafts that differ in liminal text

The liminal text in front of a statement decides nothing, and neither does the text between two
tokens. Only the text behind the newest token does: it says whether the token is continued, and for
that only its first and its last part are looked at. Two drafts that agree on the bare tokens and on
those parts stay so, whatever both take, and even if they take line ends that differ.
-/

namespace Continuation

/-- Two liminal texts that touch their neighbours alike, now and with whatever is added to both. -/
structure SameBreak (ls ms : List Text) : Prop where
  empty : ls = [] ↔ ms = []
  first : (ls.head? == some mark) = (ms.head? == some mark)
  last : ls.getLast?.any (·.getLast? == some '\n') = ms.getLast?.any (·.getLast? == some '\n')

theorem SameBreak.refl (ls : List Text) : SameBreak ls ls :=
  ⟨Iff.rfl, rfl, rfl⟩

theorem SameBreak.trans {ls ms ns : List Text} (h : SameBreak ls ms) (h' : SameBreak ms ns) :
    SameBreak ls ns :=
  ⟨h.empty.trans h'.empty, h.first.trans h'.first, h.last.trans h'.last⟩

theorem SameBreak.isAdjacent {ls ms : List Text} (h : SameBreak ls ms) (marked : Bool) :
    Continuation.isAdjacent ls marked = Continuation.isAdjacent ms marked := by
  unfold Continuation.isAdjacent
  rw [h.first, h.last]

theorem SameBreak.append {ls ms xs ys : List Text} (h : SameBreak ls ms) (hxy : SameBreak xs ys) :
    SameBreak (ls ++ xs) (ms ++ ys) := by
  constructor
  · simp [h.empty, hxy.empty]
  · cases ls with
    | nil =>
        obtain rfl : ms = [] := h.empty.mp rfl
        exact hxy.first
    | cons l ls =>
        obtain ⟨m, ms, rfl⟩ : ∃ m ms', ms = m :: ms' := by
          refine List.exists_cons_of_ne_nil fun hnil => ?_
          exact absurd (h.empty.mpr hnil) (List.cons_ne_nil l ls)
        exact h.first
  · have hlast := hxy.last
    rw [List.getLast?_append, List.getLast?_append]
    cases hxs : xs.getLast? with
    | none =>
        obtain rfl : xs = [] := List.getLast?_eq_none_iff.mp hxs
        obtain rfl : ys = [] := hxy.empty.mp rfl
        exact h.last
    | some x =>
        obtain ⟨y, hys⟩ : ∃ y, ys.getLast? = some y := by
          refine Option.ne_none_iff_exists'.mp fun hnone => ?_
          rw [hxy.empty.mpr (List.getLast?_eq_none_iff.mp hnone)] at hxs
          cases hxs
        rw [hxs, hys] at hlast
        rw [hys]
        exact hlast

/-- What ends a line is no mark, and all that ends a line does it alike. -/
theorem SameBreak.of_sameButEnd {ls ms : List Text} (h : List.Forall₂ Text.SameButEnd ls ms) :
    SameBreak ls ms := by
  constructor
  · cases h <;> simp
  · cases h with
    | nil => rfl
    | cons htu _ =>
        rcases htu with rfl | ⟨ht, hu⟩
        · rfl
        · have hmark : ∀ t : Text, t.getLast? = some '\n' → t ≠ mark := by
            rintro t ht rfl
            cases ht
          simp [hmark _ ht, hmark _ hu]
  · have hreversed := List.rel_reverse h
    rw [List.getLast?_eq_head?_reverse, List.getLast?_eq_head?_reverse]
    generalize ls.reverse = ls', ms.reverse = ms' at hreversed
    cases hreversed with
    | nil => rfl
    | cons htu _ =>
        rcases htu with rfl | ⟨ht, hu⟩
        · rfl
        · simp [ht, hu]

/-- The same error, or the same joined token, up to its surroundings. -/
inductive RejoinedAlike : Except LexError (Option Token) → Except LexError (Option Token) → Prop
  | error (e : LexError) : RejoinedAlike (.error e) (.error e)
  | none : RejoinedAlike (.ok none) (.ok none)
  | some {t t' : Token} (h : t.bare = t'.bare) : RejoinedAlike (.ok (some t)) (.ok (some t'))

theorem rejoin_alike {t t' : Token} (h : t.bare = t'.bare) {ls ms : List Text}
    (hbreak : SameBreak ls ms) (marked : Bool) {fragment fragment' : Lexeme}
    (hfragment : fragment.SameButEnd fragment') :
    RejoinedAlike (rejoin t ls marked fragment) (rejoin t' ms marked fragment') := by
  have hvalue : t.bare.value = t'.bare.value := congrArg Token.value h
  have hexpanded : t.bare.isExpanded = t'.bare.isExpanded := congrArg Token.isExpanded h
  change t.value = t'.value at hvalue
  change t.isExpanded = t'.isExpanded at hexpanded
  cases hfragment with
  | refl =>
      unfold rejoin
      rw [hvalue, hexpanded, hbreak.isAdjacent]
      split
      · exact .none
      · split
        · exact .error _
        · split
          · exact .some rfl
          · exact .none
  | lineEnd =>
      -- a line end is never joined to a token
      unfold rejoin
      rw [if_pos (by simp [Lexeme.isSemantic, Lexeme.role, Lexeme.Kind.role]),
        if_pos (by simp [Lexeme.isSemantic, Lexeme.role, Lexeme.Kind.role])]
      exact .none

end Continuation

namespace Draft

structure Alike (d d' : Draft) : Prop where
  bare : d.bare = d'.bare
  liminals : d.bare ≠ [] → Continuation.SameBreak d.liminals d'.liminals

theorem alike_of_tokens_nil {d d' : Draft} (hd : d.tokens = []) (hd' : d'.tokens = []) :
    d.Alike d' := by
  have hbare := bare_eq_nil.mpr hd
  exact ⟨hbare.trans (bare_eq_nil.mpr hd').symm, fun hne => absurd hbare hne⟩

theorem alike_ofLiminals (ls ms : List Text) : (ofLiminals ls).Alike (ofLiminals ms) :=
  alike_of_tokens_nil rfl rfl

theorem Alike.trans {d d' d'' : Draft} (h : d.Alike d') (h' : d'.Alike d'') : d.Alike d'' := by
  refine ⟨h.bare.trans h'.bare, fun hne => ?_⟩
  exact (h.liminals hne).trans (h'.liminals (h.bare ▸ hne))

theorem Alike.addLiminals_of_sameBreak {d d' : Draft} (h : d.Alike d') {ls ms : List Text}
    (hbreak : Continuation.SameBreak ls ms) :
    (d.addLiminals ls).Alike (d'.addLiminals ms) := by
  refine ⟨h.bare, fun hne => ?_⟩
  exact (h.liminals hne).append hbreak

theorem Alike.addLiminals {d d' : Draft} (h : d.Alike d') (ls : List Text) :
    (d.addLiminals ls).Alike (d'.addLiminals ls) :=
  h.addLiminals_of_sameBreak (.refl ls)

theorem Alike.addTexts {d d' : Draft} (h : d.Alike d') {ls ms : List Lexeme}
    (hlm : List.Forall₂ Lexeme.SameButEnd ls ms) :
    (d.addLiminals (ls.map Lexeme.text)).Alike (d'.addLiminals (ms.map Lexeme.text)) :=
  h.addLiminals_of_sameBreak (.of_sameButEnd (Lexeme.texts_sameButEnd hlm))

@[simp] theorem liminals_addToken (d : Draft) (t : Token) : (d.addToken t).liminals = [] := by
  unfold addToken
  split <;> rfl

theorem Alike.addToken {d d' : Draft} (h : d.Alike d') (t : Token) :
    (d.addToken t).Alike (d'.addToken t) :=
  ⟨by rw [bare_addToken, bare_addToken, h.bare], fun _ => by simpa using .refl []⟩

theorem Alike.foldl_addToken {d d' : Draft} (h : d.Alike d') (ts : List Token) :
    (ts.foldl Draft.addToken d).Alike (ts.foldl Draft.addToken d') := by
  induction ts generalizing d d' with
  | nil => exact h
  | cons t ts ih => exact ih (h.addToken t)

theorem Alike.addLexeme {d d' : Draft} (h : d.Alike d') (macros : MacroTable) (l : Lexeme) :
    (d.addLexeme macros l).Alike (d'.addLexeme macros l) := by
  unfold Draft.addLexeme
  split
  · exact h.addToken _
  · exact h.addLiminals _
  · exact h.foldl_addToken _

theorem Alike.statement?_cases {d d' : Draft} (h : d.Alike d') :
    (d.statement? = none ∧ d'.statement? = none) ∨
      ∃ s s', d.statement? = some s ∧ d'.statement? = some s' ∧ s.bare = s'.bare := by
  cases hs : d.statement? with
  | none =>
      have hnone := statement?_eq_none.mp hs
      rw [h.bare] at hnone
      exact Or.inl ⟨rfl, statement?_eq_none.mpr hnone⟩
  | some s =>
      cases hs' : d'.statement? with
      | none =>
          have hnone := statement?_eq_none.mp hs'
          rw [← h.bare] at hnone
          rw [statement?_eq_none.mpr hnone] at hs
          cases hs
      | some s' =>
          have hbare := (bare_of_statement? hs).trans (h.bare.trans (bare_of_statement? hs').symm)
          exact Or.inr ⟨s, s', rfl, rfl, hbare⟩

inductive Progress.Alike : Progress → Progress → Prop
  | opened {d d' : Draft} (h : d.Alike d') : Alike (.open d) (.open d')
  | closed {s s' : Statement} (h : s.bare = s'.bare) {rest rest' : List Lexeme}
      (hrest : List.Forall₂ Lexeme.SameButEnd rest rest') :
      Alike (.closed s rest) (.closed s' rest')

theorem take_alike (macros : MacroTable) {ls ms : List Lexeme}
    (hlm : List.Forall₂ Lexeme.SameButEnd ls ms) {d d' : Draft} (h : d.Alike d') :
    (take macros ls d).1.Alike (take macros ms d').1 ∧
      (take macros ls d).2 = (take macros ms d').2 := by
  induction hlm generalizing d d' with
  | nil =>
      unfold take
      rcases h.statement?_cases with ⟨hs, hs'⟩ | ⟨s, s', hs, hs', hbare⟩
      · rw [hs, hs']
        exact ⟨.opened h, rfl⟩
      · rw [hs, hs']
        exact ⟨.closed hbare .nil, rfl⟩
  | @cons l m ls ms hl hrest ih =>
      have hall : List.Forall₂ Lexeme.SameButEnd (l :: ls) (m :: ms) := .cons hl hrest
      have hfirst := h.addTexts (.cons hl .nil)
      have hbetween : ∀ l m : Lexeme, l.SameButEnd m →
          (l.isLiminal || l.isContinuation) = (m.isLiminal || m.isContinuation) := by
        intro l m hlm
        rw [hlm.isLiminal, hlm.isContinuation]
      unfold take
      rw [← hl.role]
      split
      · exact ih hfirst
      · exact ih hfirst
      · dsimp only
        rcases (h.addTexts (forall₂_takeWhile hbetween hall)).statement?_cases with
          ⟨hs, hs'⟩ | ⟨s, s', hs, hs', hbare⟩
        · rw [hs, hs']
          exact ih hfirst
        · rw [hs, hs']
          exact ⟨.closed hbare (forall₂_dropWhile hbetween hall), rfl⟩
      · exact ⟨.opened (h.addTexts hall), rfl⟩
      · rename_i hrole
        obtain rfl := hl.eq_of_role (by simp [hrole])
        obtain ⟨hprogress, hfindings⟩ := ih (h.addLexeme macros l)
        exact ⟨hprogress, congrArg (expansionOf macros l ++ ·) hfindings⟩

theorem Alike.exists_of_tokens {d d' : Draft} (h : d.Alike d') {newest : Token}
    {older : List Token} (ht : d.tokens = newest :: older) :
    ∃ newest' older', d'.tokens = newest' :: older' ∧ newest.bare = newest'.bare ∧
      older.map Token.bare = older'.map Token.bare := by
  have hbare := h.bare
  rw [bare_of_tokens ht] at hbare
  cases ht' : d'.tokens with
  | nil =>
      rw [bare_eq_nil.mpr ht'] at hbare
      simp at hbare
  | cons newest' older' =>
      rw [bare_of_tokens ht'] at hbare
      obtain ⟨holder, hnewest⟩ := List.append_inj' hbare rfl
      exact ⟨newest', older', rfl, List.singleton_inj.mp hnewest, by simpa using holder⟩

theorem Alike.take_open {macros : MacroTable} {ls ms : List Lexeme} {d d' e : Draft}
    {findings : List Finding} (h : d.Alike d') (hlm : List.Forall₂ Lexeme.SameButEnd ls ms)
    (ht : take macros ls d = (.open e, findings)) :
    ∃ e', take macros ms d' = (.open e', findings) ∧ e.Alike e' := by
  obtain ⟨htaken, hfindings⟩ := take_alike macros hlm h
  rw [ht] at htaken hfindings
  cases ht' : take macros ms d' with
  | mk progress findings' =>
      rw [ht'] at htaken hfindings
      cases htaken with
      | @opened _ e' he => exact ⟨e', Prod.ext rfl hfindings.symm, he⟩

theorem Alike.take_closed {macros : MacroTable} {ls ms rest : List Lexeme} {d d' : Draft}
    {s : Statement} {findings : List Finding} (h : d.Alike d')
    (hlm : List.Forall₂ Lexeme.SameButEnd ls ms)
    (ht : take macros ls d = (.closed s rest, findings)) :
    ∃ s' rest', take macros ms d' = (.closed s' rest', findings) ∧ s.bare = s'.bare ∧
      List.Forall₂ Lexeme.SameButEnd rest rest' := by
  obtain ⟨htaken, hfindings⟩ := take_alike macros hlm h
  rw [ht] at htaken hfindings
  cases ht' : take macros ms d' with
  | mk progress findings' =>
      rw [ht'] at htaken hfindings
      cases htaken with
      | @closed _ s' hs _ rest' hrest =>
          exact ⟨s', rest', Prod.ext rfl hfindings.symm, hs, hrest⟩

/-- A continuation mark at the front of a row is taken for itself. -/
theorem splitMark_alike {ls ms : List Lexeme} (h : List.Forall₂ Lexeme.SameButEnd ls ms) :
    (splitMark ls).1 = (splitMark ms).1 ∧
      List.Forall₂ Lexeme.SameButEnd (splitMark ls).2 (splitMark ms).2 := by
  cases h with
  | nil => exact ⟨rfl, .nil⟩
  | @cons l m ls ms hl hrest =>
      unfold splitMark
      dsimp only
      rw [← hl.isContinuation]
      split
      · rename_i hmark
        obtain rfl := hl.eq_of_role fun hrole => by simp [Lexeme.isContinuation, hrole] at hmark
        exact ⟨rfl, hrest⟩
      · exact ⟨rfl, .cons hl hrest⟩

/-- The same error, or the same events, and alike lexemes left behind alike drafts. -/
inductive ResumedAlike :
    Except LexError (Draft × List Lexeme × List Event) →
      Except LexError (Draft × List Lexeme × List Event) → Prop
  | error (e : LexError) : ResumedAlike (.error e) (.error e)
  | ok {d d' : Draft} (h : d.Alike d') {rest rest' : List Lexeme}
      (hrest : List.Forall₂ Lexeme.SameButEnd rest rest') (es : List Event) :
      ResumedAlike (.ok (d, rest, es)) (.ok (d', rest', es))

theorem resume_alike {d d' : Draft} (h : d.Alike d') {content content' : List Lexeme}
    (hcontent : List.Forall₂ Lexeme.SameButEnd content content') :
    ResumedAlike (d.resume content) (d'.resume content') := by
  obtain ⟨hmark, hbehind⟩ := splitMark_alike hcontent
  have hmarks := h.addLiminals (splitMark content).1
  unfold resume
  dsimp only
  rw [← hmark]
  generalize (splitMark content).2 = lexemes, (splitMark content').2 = lexemes' at hbehind
  cases ht : d.tokens with
  | nil =>
      have ht' : d'.tokens = [] := by
        rw [← bare_eq_nil, ← h.bare, bare_eq_nil]
        exact ht
      simp only [ht']
      exact .ok hmarks hbehind _
  | cons newest older =>
      obtain ⟨newest', older', ht', hnewest, holder⟩ := h.exists_of_tokens ht
      have hbreak : Continuation.SameBreak d.liminals d'.liminals :=
        h.liminals fun hnil => by simp [bare_eq_nil.mp hnil] at ht
      cases hbehind with
      | nil =>
          simp only [ht']
          exact .ok hmarks .nil _
      | @cons fragment fragment' rest rest' hfragment hrest =>
          simp only [ht']
          have hjoin := Continuation.rejoin_alike hnewest hbreak
            (!(splitMark content).1.isEmpty) hfragment
          generalize Continuation.rejoin newest d.liminals (!(splitMark content).1.isEmpty)
            fragment = joined at hjoin ⊢
          generalize Continuation.rejoin newest' d'.liminals (!(splitMark content).1.isEmpty)
            fragment' = joined' at hjoin ⊢
          cases hjoin with
          | error e => exact .error e
          | none => exact .ok hmarks (.cons hfragment hrest) _
          | @some merged merged' hmerged =>
              have hjoined : Alike ⟨merged :: older, []⟩ ⟨merged' :: older', []⟩ := by
                refine ⟨?_, fun _ => .refl []⟩
                rw [bare_of_tokens rfl, bare_of_tokens rfl, hmerged, List.map_reverse,
                  List.map_reverse, holder]
              have hvalue : merged.bare.value = merged'.bare.value := congrArg Token.value hmerged
              change merged.value = merged'.value at hvalue
              dsimp only
              rw [hvalue]
              exact .ok hjoined hrest _

theorem Alike.resume_error {d d' : Draft} {content content' : List Lexeme} {e : LexError}
    (h : d.Alike d') (hcontent : List.Forall₂ Lexeme.SameButEnd content content')
    (hr : d.resume content = .error e) : d'.resume content' = .error e := by
  have hresumed := resume_alike h hcontent
  rw [hr] at hresumed
  cases hr' : d'.resume content' with
  | error e' =>
      rw [hr'] at hresumed
      cases hresumed
      rfl
  | ok resumed =>
      rw [hr'] at hresumed
      cases hresumed

theorem Alike.resume_ok {d d' e : Draft} {content content' rest : List Lexeme} {es : List Event}
    (h : d.Alike d') (hcontent : List.Forall₂ Lexeme.SameButEnd content content')
    (hr : d.resume content = .ok (e, rest, es)) :
    ∃ e' rest', d'.resume content' = .ok (e', rest', es) ∧ e.Alike e' ∧
      List.Forall₂ Lexeme.SameButEnd rest rest' := by
  have hresumed := resume_alike h hcontent
  rw [hr] at hresumed
  cases hr' : d'.resume content' with
  | error e' =>
      rw [hr'] at hresumed
      cases hresumed
  | ok resumed =>
      rw [hr'] at hresumed
      cases hresumed with
      | @ok _ e' he _ rest' hrest => exact ⟨e', rest', rfl, he, hrest⟩

end Draft

end FreeForm
