import FreeForm.Proofs.Draft.Expansion

namespace FreeForm

/-!
# What separators end

While a draft has a token, the first separator that it takes closes it. The lexemes that it takes of
a line are live: they reach to the first continuation mark, which makes the rest of the line liminal
text, separators included.
-/

namespace Lexeme

/-- No separator stands behind a semantic lexeme. -/
def Unbroken (ls : List Lexeme) : Prop :=
  ∀ before l after, ls = before ++ l :: after → l.kind = .separator →
    ∀ m ∈ before, m.isSemantic = false

/-- No separator stands between two semantic lexemes. -/
def Unseparated (ls : List Lexeme) : Prop :=
  ∀ before l after, ls = before ++ l :: after → l.kind = .separator →
    (∀ m ∈ before, m.isSemantic = false) ∨ ∀ m ∈ after, m.isSemantic = false

theorem unbroken_of_plain {ls : List Lexeme} (h : ∀ l ∈ ls, l.isSemantic = false) :
    Unbroken ls := by
  rintro before l after rfl _ m hm
  exact h m (List.mem_append_left _ hm)

theorem Unbroken.concat {ls : List Lexeme} (h : Unbroken ls) {l : Lexeme}
    (hl : l.kind ≠ .separator) : Unbroken (ls ++ [l]) := by
  intro before s after heq hs
  rcases List.eq_nil_or_concat after with rfl | ⟨front, last, rfl⟩
  · obtain ⟨_, hlast⟩ := List.append_inj' heq rfl
    obtain rfl : l = s := List.singleton_inj.mp hlast
    exact absurd hs hl
  · rw [List.concat_eq_append, ← List.cons_append, ← List.append_assoc] at heq
    obtain ⟨hls, _⟩ := List.append_inj' heq rfl
    exact h before s front hls hs

theorem Unbroken.append_plain {ls ms : List Lexeme} (h : Unbroken ls)
    (hms : ∀ m ∈ ms, m.isSemantic = false) : Unseparated (ls ++ ms) := by
  intro before s after heq hs
  rcases List.append_eq_append_iff.mp heq with ⟨as, rfl, hback⟩ | ⟨bs, rfl, hback⟩
  · right
    intro m hm
    apply hms
    rw [hback]
    exact List.mem_append_right _ (List.mem_cons_of_mem s hm)
  · cases bs with
    | nil =>
        right
        intro m hm
        apply hms
        rw [← List.nil_append ms, ← hback]
        exact List.mem_cons_of_mem s hm
    | cons b bs =>
        left
        obtain ⟨rfl, _⟩ := List.cons.inj hback
        exact h before s bs rfl hs

theorem Unbroken.unseparated {ls : List Lexeme} (h : Unbroken ls) : Unseparated ls := by
  have happended : Unseparated (ls ++ []) := h.append_plain (List.forall_mem_nil _)
  rwa [List.append_nil] at happended

/-- The lexemes in front of a continuation mark. -/
def uncut (ls : List Lexeme) : List Lexeme :=
  ls.takeWhile (!·.isContinuation)

theorem uncut_cons_of_mark {l : Lexeme} (h : l.isContinuation = true) (ls : List Lexeme) :
    uncut (l :: ls) = [] := by
  simp [uncut, h]

theorem uncut_cons {l : Lexeme} (h : l.isContinuation = false) (ls : List Lexeme) :
    uncut (l :: ls) = l :: uncut ls := by
  simp [uncut, h]

/-- The lexemes of a line that a statement takes: from the first that is not liminal to the next
continuation mark. -/
def live (ls : List Lexeme) : List Lexeme :=
  match ls.dropWhile (·.isLiminal) with
  | [] => []
  | l :: ls => l :: uncut ls

theorem live_of_liminal {ls : List Lexeme} (h : ∀ l ∈ ls, l.isLiminal = true) : live ls = [] := by
  have hnil : (ls ++ []).dropWhile Lexeme.isLiminal = [] := List.dropWhile_append_of_pos h
  rw [List.append_nil] at hnil
  simp [live, hnil]

theorem live_append {lead : List Lexeme} (hlead : ∀ l ∈ lead, l.isLiminal = true) {l : Lexeme}
    (hl : l.isLiminal = false) (ls : List Lexeme) : live (lead ++ l :: ls) = l :: uncut ls := by
  unfold live
  rw [List.dropWhile_append_of_pos hlead, List.dropWhile_cons_of_neg (by simp [hl])]

end Lexeme

open Lexeme

/-- Whether a deed makes something of a lexeme as it is written, within a statement. -/
def Deed.IsLiteral : Deed → Prop
  | pushed _ macros _ => macros = .empty
  | joined .. => True
  | leftOut _ | ended => False

/-- Tokens that are made of lexemes, in order: of each one the token that it is, or what it completes
of the token in front of it. -/
def Token.MadeOf (ts : List Token) (ls : List Lexeme) : Prop :=
  ∃ deeds : List Deed, deeds.filterMap Deed.lexeme? = ls.filter (·.isSemantic) ∧
    (∀ deed ∈ deeds, deed.IsLiteral) ∧ deeds.foldlM Deed.perform ⟨[], []⟩ = some ⟨[], ts⟩

theorem Token.madeOf_nil {ls : List Lexeme} (h : ∀ l ∈ ls, l.isSemantic = false) :
    MadeOf [] ls := by
  have hnone : ls.filter (·.isSemantic) = [] := by
    refine List.filter_eq_nil_iff.mpr fun m hm => ?_
    simp [h m hm]
  exact ⟨[], hnone.symm, List.forall_mem_nil _, rfl⟩

theorem Token.MadeOf.append_plain {ts : List Token} {ls ms : List Lexeme} (h : MadeOf ts ls)
    (hms : ∀ m ∈ ms, m.isSemantic = false) : MadeOf ts (ls ++ ms) := by
  obtain ⟨deeds, hdeeds, hrun⟩ := h
  have hnone : ms.filter (·.isSemantic) = [] := by
    refine List.filter_eq_nil_iff.mpr fun m hm => ?_
    simp [hms m hm]
  exact ⟨deeds, by rw [List.filter_append, hnone, List.append_nil, hdeeds], hrun⟩

/-- One more deed makes something of one more lexeme. -/
theorem Token.MadeOf.concat {ts us : List Token} {ls : List Lexeme} (h : MadeOf ts ls)
    {l : Lexeme} (hl : l.isSemantic = true) (deed : Deed) (hlexeme : deed.lexeme? = some l)
    (hliteral : deed.IsLiteral) (hperform : deed.perform ⟨[], ts⟩ = some ⟨[], us⟩) :
    MadeOf us (ls ++ [l]) := by
  obtain ⟨deeds, hdeeds, hall, hrun⟩ := h
  refine ⟨deeds ++ [deed], ?_, ?_, ?_⟩
  · rw [List.filterMap_append, List.filter_append, hdeeds]
    simp [hl, hlexeme]
  · exact List.forall_mem_append.mpr ⟨hall, by simpa using hliteral⟩
  · rw [List.foldlM_append, hrun]
    simp [hperform]

namespace Draft

/-- What a draft has of the live lexemes that it was read from. -/
structure Follows (d : Draft) (ls : List Lexeme) : Prop where
  unbroken : Unbroken ls
  plain : d.tokens = [] → ∀ l ∈ ls, l.isSemantic = false
  tokens : Token.MadeOf d.bare ls

variable {d : Draft} {ls : List Lexeme}

theorem Follows.addPlain (h : d.Follows ls) {l : Lexeme} (hl : l.isSemantic = false)
    (hkind : l.kind ≠ .separator ∨ d.tokens = []) (liminals : List Text) :
    (d.addLiminals liminals).Follows (ls ++ [l]) := by
  have hplain : d.tokens = [] → ∀ m ∈ ls ++ [l], m.isSemantic = false := by
    intro hnil m hm
    rcases List.mem_append.mp hm with hm | hm
    · exact h.plain hnil m hm
    · rwa [List.mem_singleton.mp hm]
  have hsingle : ∀ m ∈ [l], m.isSemantic = false := by
    intro m hm
    rwa [List.mem_singleton.mp hm]
  refine ⟨?_, hplain, h.tokens.append_plain hsingle⟩
  rcases hkind with hkind | hnil
  · exact h.unbroken.concat hkind
  · exact unbroken_of_plain (hplain hnil)

theorem Follows.addSemantic (h : d.Follows ls) {l : Lexeme} (hl : l.isSemantic = true) :
    (d.addLexeme .empty l).Follows (ls ++ [l]) := by
  have hkind : l.kind ≠ .separator := by
    intro hkind
    simp [isSemantic, role, hkind, Kind.role] at hl
  refine ⟨h.unbroken.concat hkind, ?_, ?_⟩
  · intro hnil
    exact absurd hnil (tokens_addToken_ne_nil d _)
  · rw [bare_addLexeme]
    exact h.tokens.concat hl (.pushed 0 .empty l) rfl rfl rfl

theorem Follows.addLiminals (h : d.Follows ls) (liminals : List Text) :
    (d.addLiminals liminals).Follows ls :=
  ⟨h.unbroken, h.plain, h.tokens⟩

/-- What a draft makes of some content, when `ls` are the live lexemes in front of it. -/
def Progress.Follows (ls content : List Lexeme) : Progress → Prop
  | .open d => d.Follows (ls ++ uncut content)
  | .closed s rest => ∃ taken, content = taken ++ rest ∧ Unseparated (ls ++ uncut taken) ∧
      Token.MadeOf s.bare (ls ++ uncut taken) ∧ ∀ l ∈ rest.head?, l.isSemantic = true

theorem Progress.Follows.cons {p : Progress} {content : List Lexeme} {l : Lexeme}
    (hl : l.isContinuation = false) (h : p.Follows (ls ++ [l]) content) :
    p.Follows ls (l :: content) := by
  cases p with
  | «open» d =>
      have hopen : d.Follows (ls ++ [l] ++ uncut content) := h
      rw [List.append_assoc, List.singleton_append, ← uncut_cons hl] at hopen
      exact hopen
  | closed s rest =>
      obtain ⟨taken, rfl, hseparated, hmade, hrest⟩ := h
      rw [List.append_assoc, List.singleton_append, ← uncut_cons hl] at hseparated hmade
      exact ⟨l :: taken, rfl, hseparated, hmade, hrest⟩

/-- A draft with a token is closed by a separator, with what stands between it and the next one. -/
theorem Follows.close (h : d.Follows ls) {liminals : List Text} {s : Statement}
    (hs : (d.addLiminals liminals).statement? = some s) (content : List Lexeme) :
    (Progress.closed s (content.dropWhile fun m => m.isLiminal || m.isContinuation)).Follows ls
      content := by
  have hplain : ∀ m ∈ uncut (content.takeWhile fun m => m.isLiminal || m.isContinuation),
      m.isSemantic = false := by
    intro m hm
    have hbetween := List.all_eq_true.mp List.all_takeWhile m ((List.takeWhile_sublist _).mem hm)
    simp [isSemantic_eq, hbetween]
  refine ⟨_, List.takeWhile_append_dropWhile.symm, h.unbroken.append_plain hplain, ?_, ?_⟩
  · rw [bare_of_statement? hs]
    exact h.tokens.append_plain hplain
  · intro l hl
    have hhead := List.head?_dropWhile_not (fun m : Lexeme => m.isLiminal || m.isContinuation)
      content
    rw [Option.mem_def.mp hl] at hhead
    simpa [isSemantic_eq] using hhead

/-- Content is taken up to the first separator behind a token, or up to its end. -/
theorem follows_of_take (content : List Lexeme) (h : d.Follows ls) :
    (take .empty content d).1.Follows ls content := by
  induction content generalizing d ls with
  | nil =>
      unfold take
      cases hs : d.statement? with
      | none => simpa [Progress.Follows, uncut] using h
      | some s =>
          refine ⟨[], rfl, ?_, ?_, ?_⟩
          · simpa [uncut] using h.unbroken.unseparated
          · rw [bare_of_statement? hs]
            simpa [uncut] using h.tokens
          · simp
  | cons l content ih =>
      unfold take
      split
      · rename_i hrole
        have hl : l.isContinuation = false := by simp [isContinuation, hrole]
        have hplain : l.isSemantic = false := by simp [isSemantic, hrole]
        have hkind : l.kind ≠ .separator := fun hk => by simp [role, hk, Kind.role] at hrole
        exact (ih (h.addPlain hplain (.inl hkind) _)).cons hl
      · rename_i hrole
        have hl : l.isContinuation = false := by simp [isContinuation, hrole]
        have hplain : l.isSemantic = false := by simp [isSemantic, hrole]
        have hkind : l.kind ≠ .separator := fun hk => by simp [role, hk, Kind.role] at hrole
        exact (ih (h.addPlain hplain (.inl hkind) _)).cons hl
      · rename_i hrole
        have hl : l.isContinuation = false := by simp [isContinuation, hrole]
        have hplain : l.isSemantic = false := by simp [isSemantic, hrole]
        dsimp only
        split
        · rename_i hnone
          have hnil : (d.addLiminals _).tokens = [] :=
            statement?_eq_none_iff_tokens.mp hnone
          exact (ih (h.addPlain hplain (.inr hnil) _)).cons hl
        · rename_i s hs
          exact h.close hs (l :: content)
      · rename_i hrole
        have hl : l.isContinuation = true := by simp [isContinuation, hrole]
        have hopen := h.addLiminals ((l :: content).map Lexeme.text)
        rw [← List.append_nil ls, ← uncut_cons_of_mark hl content] at hopen
        exact hopen
      · rename_i hrole
        have hl : l.isContinuation = false := by simp [isContinuation, hrole]
        have hsemantic : l.isSemantic = true := by simp [isSemantic, hrole]
        exact (ih (h.addSemantic hsemantic)).cons hl

theorem Follows.join (h : d.Follows ls) {previous merged : Token} {older : List Token}
    (htokens : d.tokens = previous :: older) {liminals : List Text} {marked : Bool}
    {fragment : Lexeme}
    (hmerged : Continuation.rejoin previous liminals marked fragment = .ok (some merged)) :
    Follows ⟨merged :: older, []⟩ (ls ++ [fragment]) := by
  obtain ⟨_, hsemantic, _⟩ := Continuation.rejoin_eq_some hmerged
  have hkind : fragment.kind ≠ .separator := by
    intro hkind
    simp [isSemantic, role, hkind, Kind.role] at hsemantic
  refine ⟨h.unbroken.concat hkind, ?_, ?_⟩
  · intro hnil
    cases hnil
  · obtain ⟨joined, hjoined, hbare⟩ := Continuation.rejoin_bare hmerged
    have htaken : Draft.bare ⟨merged :: older, []⟩ =
        older.reverse.map Token.bare ++ [merged.bare] := bare_of_tokens rfl
    rw [htaken]
    refine h.tokens.concat hsemantic (.joined liminals marked fragment) rfl trivial ?_
    rw [bare_of_tokens htokens]
    simp [Deed.perform, hjoined, hbare]

/-- What is taken of a line to continue a statement is live, and so is the rest of the line, up to
the next continuation mark. -/
theorem Follows.of_resume (h : d.Follows ls) {l : Lexeme} (hl : l.isLiminal = false)
    {content rest : List Lexeme} {d' : Draft} {events : List Event}
    (hr : d.resume (l :: content) = .ok (d', rest, events)) :
    ∃ front, l :: content = front ++ rest ∧ d'.Follows (ls ++ front) ∧
      ∀ lead taken back, (∀ m ∈ lead, m.isLiminal = true) → rest = taken ++ back →
        live (lead ++ (front ++ taken)) = front ++ uncut taken := by
  cases hmark : l.isContinuation with
  | true =>
      have hplain : l.isSemantic = false := by simp [isSemantic_eq, hmark]
      have hkind : l.kind ≠ .separator := by
        intro hkind
        simp [isContinuation, role, hkind, Kind.role] at hmark
      have hsplit : splitMark (l :: content) = ([l.text], content) := by simp [splitMark, hmark]
      have htaken := h.addPlain hplain (.inl hkind) [l.text]
      rcases resume_cases hr with
        ⟨previous, older, fragment, merged, htokens, hrest, hmerged, rfl, _⟩ | ⟨rfl, rfl, _⟩
      · obtain ⟨_, hsemantic, _⟩ := Continuation.rejoin_eq_some hmerged
        have hfragment : fragment.isContinuation = false := by
          simp only [isSemantic_eq, Bool.not_eq_true', Bool.or_eq_false_iff] at hsemantic
          exact hsemantic.2
        rw [hsplit] at hrest
        obtain rfl : content = fragment :: rest := hrest
        refine ⟨[l, fragment], rfl, ?_, ?_⟩
        · have hjoined := htaken.join htokens hmerged
          rwa [List.append_assoc] at hjoined
        · intro lead taken back hlead _
          rw [List.cons_append, live_append hlead hl, List.singleton_append,
            uncut_cons hfragment]
          rfl
      · rw [hsplit]
        refine ⟨[l], rfl, htaken, ?_⟩
        intro lead taken back hlead _
        exact live_append hlead hl taken
  | false =>
      have hsplit : splitMark (l :: content) = ([], l :: content) := by simp [splitMark, hmark]
      rcases resume_cases hr with
        ⟨previous, older, fragment, merged, htokens, hrest, hmerged, rfl, _⟩ | ⟨rfl, rfl, _⟩
      · rw [hsplit] at hrest
        obtain ⟨rfl, rfl⟩ := List.cons.inj hrest
        refine ⟨[l], rfl, h.join htokens hmerged, ?_⟩
        intro lead taken back hlead _
        exact live_append hlead hl taken
      · rw [hsplit]
        refine ⟨[], rfl, ?_, ?_⟩
        · rw [List.append_nil]
          exact h.addLiminals []
        · intro lead taken back hlead hrest
          cases taken with
          | nil =>
              rw [List.append_nil, List.append_nil, live_of_liminal hlead]
              rfl
          | cons m taken =>
              obtain ⟨rfl, _⟩ := List.cons.inj hrest
              rw [List.nil_append, live_append hlead hl, uncut_cons hmark]
              rfl

end Draft

end FreeForm
