import FreeForm.Draft

namespace FreeForm

/-!
# The source of a continued draft

A line that continues a statement may divide its newest token. The joined token spells both halves
and the text between them; nothing is lost, for the newest token of a draft owns no liminal text
yet.
-/

namespace Continuation

theorem rejoin_eq_some {previous merged : Token} {liminals : List Text} {marked : Bool}
    {fragment : Lexeme} (h : rejoin previous liminals marked fragment = .ok (some merged)) :
    previous.isExpanded = false ∧ fragment.isSemantic = true ∧
      ∃ l e opened,
        scanLine none (previous.value ++ fragment.text ++ ['\n']) = .ok ⟨[l, e], opened⟩ ∧
        merged = { Token.ofLexeme l with
          head := previous.head
          split := some (dividedSpelling previous liminals marked fragment) } := by
  unfold rejoin at h
  split at h
  · cases h
  · rename_i hguard
    simp only [Bool.or_eq_true, Bool.not_eq_true', not_or, Bool.not_eq_true,
      Bool.not_eq_false] at hguard
    refine ⟨hguard.1.1, hguard.1.2, ?_⟩
    split at h
    · cases h
    · rename_i scanned hscan
      obtain ⟨lexemes, opened⟩ := scanned
      split at h
      · rename_i l e hpair
        dsimp only at hpair
        subst hpair
        cases h
        exact ⟨l, e, opened, hscan, rfl⟩
      · cases h

theorem source_of_rejoin {previous merged : Token} {liminals : List Text} {marked : Bool}
    {fragment : Lexeme} (htail : previous.tail = [])
    (h : rejoin previous liminals marked fragment = .ok (some merged)) :
    merged.source =
      previous.source ++ (liminals.flatten ++ (if marked then mark else []) ++ fragment.text) := by
  obtain ⟨hwritten, _, l, _, _, _, rfl⟩ := rejoin_eq_some h
  have hspelled : previous.sourceText = previous.spelling := by
    have hp : previous.provenance = .written := by simpa [Token.isExpanded] using hwritten
    simp [Token.sourceText, hp]
  simp only [Token.source, htail, hspelled]
  simp [Token.sourceText, Token.spelling, Token.ofLexeme, dividedSpelling]

end Continuation

namespace Draft

theorem splitMark_append (ls : List Lexeme) :
    (splitMark ls).1.flatten ++ Lexeme.concat (splitMark ls).2 = Lexeme.concat ls := by
  cases ls with
  | nil => rfl
  | cons l ls => by_cases h : l.isContinuation <;> simp [splitMark, h]

/-- What the front of a line does to a draft: it joins a token, or only its mark is taken. -/
theorem resume_cases {d d' : Draft} {content rest : List Lexeme} {events : List Event}
    (h : d.resume content = .ok (d', rest, events)) :
    (∃ previous older fragment merged,
      d.tokens = previous :: older ∧ (splitMark content).2 = fragment :: rest ∧
      Continuation.rejoin previous d.liminals (!(splitMark content).1.isEmpty) fragment =
        .ok (some merged) ∧
      d' = ⟨merged :: older, []⟩ ∧ events = [.rejoined merged.value]) ∨
    (rest = (splitMark content).2 ∧ d' = d.addLiminals (splitMark content).1 ∧ events = []) := by
  unfold resume at h
  dsimp only at h
  split at h
  · rename_i previous older fragment rest' htokens hrest
    split at h
    · cases h
    · rename_i merged hmerged
      cases h
      exact Or.inl ⟨previous, older, fragment, merged, htokens, hrest, hmerged, rfl, rfl⟩
    · cases h
      exact Or.inr ⟨rfl, rfl, rfl⟩
  · cases h
    exact Or.inr ⟨rfl, rfl, rfl⟩

/-- The liminal text behind the newest token is still with the draft. -/
def Fresh (d : Draft) : Prop :=
  ∀ t ∈ d.tokens.head?, t.tail = []

theorem fresh_ofLiminals (liminals : List Text) : (ofLiminals liminals).Fresh := by
  intro t ht
  cases ht

theorem Fresh.addLiminals {d : Draft} (h : d.Fresh) (liminals : List Text) :
    (d.addLiminals liminals).Fresh := h

theorem fresh_addToken (d : Draft) {t : Token} (ht : t.tail = []) : (d.addToken t).Fresh := by
  intro u hu
  unfold addToken at hu
  split at hu
  · rw [← Option.some.inj hu]
    exact ht
  · rw [← Option.some.inj hu]
    exact ht

theorem Fresh.foldl_addToken {d : Draft} (h : d.Fresh) {ts : List Token}
    (hts : ∀ t ∈ ts, t.tail = []) : (ts.foldl Draft.addToken d).Fresh := by
  induction ts generalizing d with
  | nil => exact h
  | cons t ts ih =>
      exact ih (fresh_addToken d (hts t List.mem_cons_self))
        fun u hu => hts u (List.mem_cons_of_mem t hu)

theorem tail_of_mem_expansion {name : Text} {body : List Lexeme} {t : Token}
    (h : t ∈ Token.expansion name body) : t.tail = [] := by
  cases body with
  | nil => cases h
  | cons l ls =>
      rcases List.mem_cons.mp h with rfl | h
      · rfl
      · obtain ⟨m, _, rfl⟩ := List.mem_map.mp h
        rfl

theorem Fresh.addLexeme {d : Draft} (h : d.Fresh) (macros : MacroTable) (l : Lexeme) :
    (d.addLexeme macros l).Fresh := by
  unfold Draft.addLexeme
  split
  · exact fresh_addToken d rfl
  · exact h.addLiminals _
  · exact h.foldl_addToken fun _ ht => tail_of_mem_expansion ht

theorem Fresh.of_take {macros : MacroTable} {ls : List Lexeme} {d d' : Draft}
    (h : d.Fresh) (ht : (take macros ls d).1 = .open d') : d'.Fresh := by
  induction ls generalizing d with
  | nil =>
      unfold take at ht
      split at ht
      · cases ht
        exact h
      · cases ht
  | cons l ls ih =>
      unfold take at ht
      split at ht
      · exact ih (h.addLiminals _) ht
      · exact ih (h.addLiminals _) ht
      · dsimp only at ht
        split at ht
        · exact ih (h.addLiminals _) ht
        · cases ht
      · cases ht
        exact h.addLiminals _
      · exact ih (h.addLexeme macros l) ht

theorem Fresh.of_resume {d d' : Draft} {content rest : List Lexeme} {events : List Event}
    (h : d.Fresh) (hr : d.resume content = .ok (d', rest, events)) : d'.Fresh := by
  rcases resume_cases hr with ⟨_, _, _, merged, _, _, hmerged, rfl, _⟩ | ⟨_, rfl, _⟩
  · obtain ⟨_, _, l, _, _, _, rfl⟩ := Continuation.rejoin_eq_some hmerged
    intro t ht
    rw [← Option.some.inj ht]
    rfl
  · exact h.addLiminals _

theorem flatten_splitMark {content : List Lexeme}
    (h : ∀ l ∈ content, l.kind = .continuation → l.text = Continuation.mark) :
    (if !(splitMark content).1.isEmpty then Continuation.mark else []) =
      (splitMark content).1.flatten := by
  cases content with
  | nil => rfl
  | cons l ls =>
      by_cases hl : l.isContinuation
      · have hk : l.kind = .continuation := by
          have hrole : l.kind.role = .continuation := by
            simpa [Lexeme.isContinuation, Lexeme.role] using hl
          cases hkind : l.kind <;> simp_all [Lexeme.Kind.role]
        simp [splitMark, hl, h l List.mem_cons_self hk]
      · simp [splitMark, hl]

/-- Resuming a statement moves text from the line to the draft. -/
theorem source_of_resume {d d' : Draft} {content rest : List Lexeme} {events : List Event}
    (hd : d.Fresh)
    (hmarks : d.tokens ≠ [] →
      ∀ l ∈ content, l.kind = .continuation → l.text = Continuation.mark)
    (h : d.resume content = .ok (d', rest, events)) :
    d'.source ++ Lexeme.concat rest = d.source ++ Lexeme.concat content := by
  rw [← splitMark_append content]
  rcases resume_cases h with
    ⟨previous, older, fragment, merged, htokens, hrest, hmerged, rfl, _⟩ | ⟨rfl, rfl, _⟩
  · have hjoined := Continuation.source_of_rejoin (hd previous (by simp [htokens])) hmerged
    rw [flatten_splitMark (hmarks (by simp [htokens]))] at hjoined
    simp [source, htokens, hrest, hjoined]
  · simp

end Draft

end FreeForm
