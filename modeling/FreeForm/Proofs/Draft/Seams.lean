import FreeForm.Proofs.Draft.LaidOut
import FreeForm.Proofs.Draft.Source

namespace FreeForm

/-!
# Seams

A line that continues a statement may join its first token to the newest one. Then the break between
them is gone from the parts, and the layout goes on behind the joined token. Tokens that touch over
the break are not joined if their texts, put together, scan as anything but one lexeme.
-/

/-- Put together, two texts scan as anything but one lexeme. -/
def Text.Apart (a b : Text) : Prop :=
  ∃ s, scanLine none (a ++ b ++ ['\n']) = .ok s ∧ s.lexemes.length ≠ 2

instance (a b : Text) : Decidable (a.Apart b) :=
  match hscan : scanLine none (a ++ b ++ ['\n']) with
  | .error _ => .isFalse fun ⟨_, hs, _⟩ => by rw [hscan] at hs; cases hs
  | .ok s => decidable_of_iff (s.lexemes.length ≠ 2)
      ⟨fun h => ⟨s, hscan, h⟩, fun ⟨_, hs, h⟩ => by rw [hscan] at hs; cases hs; exact h⟩

theorem Liminal.eq_mark_of_ofText {t : Text} (h : ofText t = .mark) : t = Continuation.mark := by
  unfold ofText at h
  split at h
  · cases h
  · split at h
    · assumption
    · repeat' split at h
      all_goals cases h

namespace Row

theorem tail {l : Lexeme} {ls : List Lexeme} (h : Row (l :: ls)) (hl : l.kind ≠ .lineEnd) :
    Row ls := by
  cases h with
  | last he => exact absurd he hl
  | cons _ _ hrow => exact hrow

theorem tail_of_isSemantic {l : Lexeme} {ls : List Lexeme} (h : Row (l :: ls))
    (hl : l.isSemantic = true) : Row ls :=
  h.tail fun hkind => by simp [Lexeme.isSemantic, Lexeme.role, hkind, Lexeme.Kind.role] at hl

end Row

namespace Draft

variable {before : List Part} {d : Draft} {σ : Layout}

/-- The content of a line in front of which only liminal text stands. -/
structure Opening (σ : Layout) (content : List Lexeme) : Prop where
  row : Row content
  place : σ.place = .margin ∨ σ.place = .front
  first : ∃ l ls, content = l :: ls ∧ l.isLiminal = false

/-- What stands behind the mark, if any, at the front of the content of a line. -/
structure Entered (macros : MacroTable) (σ : Layout) (content : List Lexeme) (marks : List Text)
    (rest : List Lexeme) (τ : Layout) : Prop where
  single : marks = [] ∨ marks = [Continuation.mark]
  row : Row rest
  ready : Ready τ rest
  visible : τ.place ≠ .hidden
  group : τ.group = σ.group
  closed : τ.closed = σ.closed
  parts : σ.partsOf macros content = Part.ofLiminals marks ++ τ.partsOf macros rest
  after : σ.after macros content = τ.after macros rest

/-- A mark at the front of the content of a line hides nothing and closes no statement. -/
theorem Opening.entered (macros : MacroTable) {content : List Lexeme} (h : Opening σ content)
    {marks : List Text} {rest : List Lexeme} (hsplit : splitMark content = (marks, rest)) :
    Entered macros σ content marks rest (σ.run (Part.ofLiminals marks)) := by
  obtain ⟨hrow, hplace, l, ls, rfl, hl⟩ := h
  cases hmark : l.isContinuation with
  | false =>
      obtain ⟨rfl, rfl⟩ : [] = marks ∧ l :: ls = rest := by
        simpa [splitMark, hmark] using hsplit
      have hsemantic : l.isSemantic = true := by simp [Lexeme.isSemantic_eq, hl, hmark]
      have hvisible : σ.place ≠ .hidden := by
        rcases hplace with hplace | hplace <;> rw [hplace] <;> decide
      exact ⟨.inl rfl, hrow, .inr ⟨hvisible, l, ls, rfl, hsemantic⟩, hvisible, rfl, rfl, rfl, rfl⟩
  | true =>
      obtain ⟨rfl, rfl⟩ : [l.text] = marks ∧ ls = rest := by
        simpa [splitMark, hmark] using hsplit
      have hrole : l.role = .continuation := by simpa [Lexeme.isContinuation] using hmark
      have hkind : l.kind ≠ .lineEnd := fun hkind => by
        simp [Lexeme.role, hkind, Lexeme.Kind.role] at hrole
      have htext : l.text = Continuation.mark := by
        cases hrow with
        | last he => exact absurd he hkind
        | cons _ htold _ => exact Liminal.eq_mark_of_ofText ((htold.role hkind).2.2.1 hrole)
      have hparts : σ.lexemeParts macros l = [.liminal l.text] :=
        Layout.lexemeParts_of_not_semantic macros σ (by simp [Lexeme.isSemantic, hrole])
      obtain ⟨hinside, hgroup⟩ := Layout.inside_of_mark hplace
      rw [← htext] at hinside hgroup
      refine ⟨.inr (by rw [htext]), hrow.tail hkind, .inl hinside, ?_, hgroup,
        (Layout.addLiminal_of_front hplace l.text).2, ?_, ?_⟩
      · rw [Part.ofLiminals, List.map_singleton]
        exact fun hhidden => by cases hinside.symm.trans hhidden
      · rw [Layout.partsOf, hparts]
        rfl
      · rw [Layout.after_cons, hparts]
        rfl

/-- A mark at the front of a line is laid out. -/
theorem Laid.addMark (h : d.Laid before σ) {content : List Lexeme} (hopening : Opening σ content)
    {marks : List Text} {rest : List Lexeme} (hsplit : splitMark content = (marks, rest)) :
    (d.addLiminals marks).Laid before (σ.run (Part.ofLiminals marks)) := by
  rcases (hopening.entered .empty hsplit).single with rfl | rfl
  · have hnone : d.addLiminals [] = d := by simp [addLiminals]
    rw [hnone]
    exact h
  · exact h.addLiminal (.inl (LinePlace.closes_of_front hopening.place _))

/-- A joined token takes the place of its first half, and the break behind that is gone. -/
theorem Laid.join (h : d.Laid before σ) {previous merged : Token} {older : List Token}
    (htokens : d.tokens = previous :: older) (hhead : merged.head = previous.head)
    (htail : merged.tail = []) :
    ∃ τ, Laid before ⟨merged :: older, []⟩ τ ∧ τ.place = .inside ∧ τ.closed = σ.closed ∧
      (σ.plain = true → τ.plain = true) := by
  obtain ⟨_, hgroup, hclosed⟩ := h.newest previous older htokens
  generalize hfront : older.reverse.flatMap Token.parts ++ Part.ofLiminals previous.head = front
    at hgroup hclosed
  have hparts : parts ⟨merged :: older, []⟩ = front ++ [.token merged.word] := by
    rw [← hfront]
    simp [parts, Token.parts, hhead, htail]
  have hwhole : σ = (Layout.start.run (before ++ front)).run
      (.token previous.word :: Part.ofLiminals previous.tail ++ Part.ofLiminals d.liminals) := by
    rw [← h.run, ← Layout.run_append, ← hfront]
    simp [parts, htokens, Token.parts]
  -- the layout in front of the newest token is kept in view for this
  refine ⟨(Layout.start.run (before ++ front)).addToken merged.word, ⟨?_, ?_, fun _ => rfl, ?_⟩,
    rfl, hclosed, fun hplain => ?_⟩
  · rw [hparts, ← List.append_assoc, Layout.run_append]
    rfl
  · exact congrArg (merged.word :: ·) hgroup
  · intro newest others heq
    cases heq
    rw [hhead, hfront]
    exact ⟨htail, hgroup, rfl⟩
  · rw [hwhole] at hplain
    have hfront : (Layout.start.run (before ++ front)).plain = true := Layout.plain_of_run hplain
    exact hfront

/-- What touches a break on both sides touches it in the layout. -/
theorem touches_of_isAdjacent {liminals marks : List Text}
    (hmarks : marks = [] ∨ marks = [Continuation.mark])
    (h : Continuation.isAdjacent liminals (!marks.isEmpty) = true) :
    Continuation.touches (liminals ++ marks) = true := by
  cases liminals with
  | nil => simp [Continuation.isAdjacent] at h
  | cons t ts =>
      rcases hmarks with rfl | rfl
      · simp only [Continuation.isAdjacent, Continuation.touches, List.append_nil,
          Bool.and_eq_true] at h ⊢
        refine ⟨h.1, ?_⟩
        have hlast := h.2
        simp only [List.isEmpty_nil, Bool.not_true, Bool.false_or] at hlast
        cases hl : (t :: ts).getLast? with
        | none => simp [hl] at hlast
        | some last =>
            rw [hl, Option.any_some] at hlast
            simp [hlast]
      · have hfirst := (Bool.and_eq_true_iff.mp h).1
        have hlast : (t :: ts ++ [Continuation.mark]).getLast? = some Continuation.mark :=
          List.getLast?_concat
        rw [Continuation.touches, hlast]
        simpa using hfirst

/-- Where the neighbours that touch stand apart, nothing is joined. -/
theorem resume_of_apart (h : d.Laid before σ) {content : List Lexeme}
    (hopening : Opening σ content) {marks : List Text} {rest : List Lexeme}
    (hsplit : splitMark content = (marks, rest))
    (hseams : ∀ p ∈ (σ.after .empty content).seams, Text.Apart p.1.value p.2.value) :
    d.resume content = .ok (d.addLiminals marks, rest, []) := by
  have hentered := hopening.entered .empty hsplit
  have hlaid := h.addMark hopening hsplit
  generalize σ.run (Part.ofLiminals marks) = τ at hentered hlaid
  unfold resume
  rw [hsplit]
  cases htokens : d.tokens with
  | nil => rfl
  | cons previous older =>
      cases rest with
      | nil => rfl
      | cons fragment rest =>
          have hnone : Continuation.rejoin previous d.liminals (!marks.isEmpty) fragment =
              .ok none := by
            unfold Continuation.rejoin
            split
            · rfl
            · rename_i hguard
              simp only [Bool.or_eq_true, Bool.not_eq_true', not_or, Bool.not_eq_true,
                Bool.not_eq_false] at hguard
              obtain ⟨⟨_, hsemantic⟩, hadjacent⟩ := hguard
              -- the neighbours touch, so that the layout counts them among its seams
              have hbetween : τ.between = d.liminals ++ marks :=
                hlaid.between (by simp [addLiminals, htokens])
              have htouches : Continuation.touches τ.between = true :=
                hbetween ▸ touches_of_isAdjacent hentered.single hadjacent
              have hgroup : τ.group.head? = some previous.word := by
                rw [hlaid.group]
                simp [addLiminals, htokens]
              have hparts : τ.lexemeParts .empty fragment = [.token ⟨fragment.text, .written⟩] := by
                simp [Layout.lexemeParts, hsemantic, hentered.visible, MacroTable.get?, MacroTable.empty]
              have hseam : (previous.word, ⟨fragment.text, .written⟩) ∈
                  (τ.addToken ⟨fragment.text, .written⟩).seams := by
                simp [Layout.addToken, htouches, hgroup]
              have hfinal : (previous.word, ⟨fragment.text, .written⟩) ∈
                  (σ.after .empty content).seams := by
                rw [hentered.after, Layout.after_cons, hparts]
                exact (Layout.seams_prefix_run _ _).subset hseam
              obtain ⟨s, hscan, hlength⟩ : Text.Apart previous.value fragment.text :=
                hseams _ hfinal
              rw [hscan]
              dsimp only
              split
              · rename_i hpair
                rw [hpair] at hlength
                exact absurd rfl hlength
              · rfl
          simp only [hnone]

theorem isAdjacent_of_rejoin {previous merged : Token} {liminals : List Text} {marked : Bool}
    {f : Lexeme} (h : Continuation.rejoin previous liminals marked f = .ok (some merged)) :
    Continuation.isAdjacent liminals marked = true := by
  cases hadjacent : Continuation.isAdjacent liminals marked with
  | true => rfl
  | false => simp [Continuation.rejoin, hadjacent] at h

/-- Halves that touch and are not joined stand apart. -/
theorem apart_of_resume {content : List Lexeme}
    (hresume : d.resume content = .ok (d.addLiminals (splitMark content).1, (splitMark content).2, []))
    {previous : Token} {older : List Token} (htokens : d.tokens = previous :: older)
    (hkept : previous.isExpanded = false) {f : Lexeme} {rest : List Lexeme}
    (hsplit : (splitMark content).2 = f :: rest) (hf : f.isSemantic = true)
    (hadjacent : Continuation.isAdjacent d.liminals (!(splitMark content).1.isEmpty) = true) :
    Text.Apart previous.value f.text := by
  unfold resume at hresume
  dsimp only at hresume
  rw [htokens, hsplit] at hresume
  dsimp only at hresume
  split at hresume
  · cases hresume
  · simp at hresume
  · rename_i hnone
    unfold Continuation.rejoin at hnone
    rw [if_neg (by simp [hkept, hf, hadjacent])] at hnone
    split at hnone
    · cases hnone
    · rename_i scanned hscan
      split at hnone
      · cases hnone
      · rename_i hpair
        refine ⟨scanned, hscan, fun hlength => ?_⟩
        obtain ⟨lexemes, _⟩ := scanned
        match lexemes, hlength with
        | [l, e], _ => exact hpair l e rfl

end Draft

/-- The newest token and the first one of a line meet where the line starts. -/
structure Layout.Meets (σ : Layout) (ls : List Lexeme) (w : Word) (f : Lexeme)
    (rest : List Lexeme) : Prop where
  newest : σ.group.head? = some w
  kept : w.origin ≠ .expanded
  semantic : f.isSemantic = true
  first : (Draft.splitMark (LineParts.ofLexemes ls).content).2 = f :: rest
  adjacent : Continuation.isAdjacent (σ.between ++ (LineParts.ofLexemes ls).lead)
    (!(Draft.splitMark (LineParts.ofLexemes ls).content).1.isEmpty) = true

/-- What the lexemes of a line make of the parts so far. -/
inductive Layout.Extends (macros : MacroTable) (ls : List Lexeme) (ps : List Part) :
    List Part → Prop
  | whole (happart : ∀ w f rest, (start.run ps).Meets ls w f rest → Text.Apart w.value f.text) :
      Extends macros ls ps (ps ++ (start.run ps).partsOf macros ls)
  | joined {front : List Part} {w : Word} {between : List Text} {f l e : Lexeme}
      {rest : List Lexeme} {o : Option Char}
      (hps : ps = front ++ .token w :: Part.ofLiminals between)
      (hmeets : (start.run ps).Meets ls w f rest)
      (hjoined : scanLine none (w.value ++ f.text ++ ['\n']) = .ok ⟨[l, e], o⟩) :
      Extends macros ls ps (front ++ .token ⟨l.text, .joined⟩ ::
        ((start.run front).addToken ⟨l.text, .joined⟩).partsOf macros rest)

namespace Draft

variable {before : List Part} {d : Draft} {σ : Layout} {ls : List Lexeme}

/-- What meets and is not joined stands apart. -/
theorem Laid.apart_of_meets (h : d.Laid before σ) {w : Word} {f : Lexeme} {rest : List Lexeme}
    (hmeets : σ.Meets ls w f rest)
    (hresume : (d.addLiminals (LineParts.ofLexemes ls).lead).resume (LineParts.ofLexemes ls).content =
      .ok ((d.addLiminals (LineParts.ofLexemes ls).lead).addLiminals
          (splitMark (LineParts.ofLexemes ls).content).1,
        (splitMark (LineParts.ofLexemes ls).content).2, [])) : Text.Apart w.value f.text := by
  have hnewest := hmeets.newest
  rw [h.group] at hnewest
  cases htokens : d.tokens with
  | nil => simp [htokens] at hnewest
  | cons previous older =>
      obtain rfl : previous.word = w := by simpa [htokens] using hnewest
      have hkept : previous.isExpanded = false := by
        have hnot : previous.origin ≠ .expanded := hmeets.kept
        simpa [Token.origin_eq_expanded] using hnot
      have hadjacent := hmeets.adjacent
      rw [h.between (by simp [htokens])] at hadjacent
      exact apart_of_resume hresume htokens hkept hmeets.first hmeets.semantic hadjacent

/-- What is joined meets, and takes the place of its first half. -/
theorem Laid.extends_of_rejoin (macros : MacroTable) (h : d.Laid before σ)
    {previous merged : Token} {older : List Token} (htokens : d.tokens = previous :: older)
    {f : Lexeme} {rest : List Lexeme}
    (hsplit : (splitMark (LineParts.ofLexemes ls).content).2 = f :: rest)
    (hmerged : Continuation.rejoin previous (d.liminals ++ (LineParts.ofLexemes ls).lead)
      (!(splitMark (LineParts.ofLexemes ls).content).1.isEmpty) f = .ok (some merged)) :
    Layout.Extends macros ls (before ++ d.parts) (before ++ (parts ⟨merged :: older, []⟩ ++
      (Layout.start.run (before ++ parts ⟨merged :: older, []⟩)).partsOf macros rest)) := by
  obtain ⟨hkept, hsemantic, l, e, o, hscan, hform⟩ := Continuation.rejoin_eq_some hmerged
  obtain ⟨htail, _⟩ := h.newest previous older htokens
  have hmeets : σ.Meets ls previous.word f rest := by
    refine ⟨?_, ?_, hsemantic, hsplit, ?_⟩
    · rw [h.group, htokens]
      rfl
    · have hnot : previous.origin ≠ .expanded := by simp [Token.origin_eq_expanded, hkept]
      exact hnot
    · rw [h.between (by simp [htokens])]
      exact isAdjacent_of_rejoin hmerged
  generalize hfront : older.reverse.flatMap Token.parts ++ Part.ofLiminals previous.head = front
  have hold : before ++ d.parts =
      before ++ front ++ .token previous.word :: Part.ofLiminals d.liminals := by
    simp [parts, htokens, Token.parts, htail, ← hfront]
  have hword : merged.word = ⟨l.text, .joined⟩ := by
    rw [hform]
    rfl
  have hhead : merged.head = previous.head := by rw [hform]
  have hnone : merged.tail = [] := by
    rw [hform]
    rfl
  have hnew : before ++ parts ⟨merged :: older, []⟩ = before ++ front ++ [.token ⟨l.text, .joined⟩] := by
    simp [parts, Token.parts, hhead, hnone, hword, ← hfront]
  rw [← h.run] at hmeets
  rw [← List.append_assoc, hnew, Layout.run_append, List.append_assoc]
  exact .joined hold hmeets hscan

end Draft

end FreeForm
