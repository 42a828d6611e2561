import FreeForm.Proofs.Draft.Layout

namespace FreeForm

/-!
# Drafts laid out

A draft that takes lexemes is laid out by its parts as the lexemes are, whatever macros they stand
for: it takes the rest of a line up to the end of the statement that its parts close, and leaves off
where they leave a statement open.
-/

namespace Draft

/-- A draft behind some parts has the layout that its parts lead to. The layout in front of the
newest token is kept in view, for the token may still be joined with more of its text. -/
structure Laid (before : List Part) (d : Draft) (σ : Layout) : Prop where
  run : Layout.start.run (before ++ d.parts) = σ
  group : σ.group = d.tokens.map Token.word
  between : d.tokens ≠ [] → σ.between = d.liminals
  newest : ∀ newest older, d.tokens = newest :: older → newest.tail = [] ∧
    (Layout.start.run (before ++ (older.reverse.flatMap Token.parts ++
      Part.ofLiminals newest.head))).group = older.map Token.word ∧
    (Layout.start.run (before ++ (older.reverse.flatMap Token.parts ++
      Part.ofLiminals newest.head))).closed = σ.closed

variable {before : List Part} {d : Draft} {σ : Layout}

theorem Laid.addLiminal (h : d.Laid before σ) {t : Text}
    (hopen : σ.place.closes (.ofText t) = false ∨ σ.group = []) :
    (d.addLiminals [t]).Laid before (σ.addLiminal t) := by
  obtain ⟨hgroup, hclosed⟩ := Layout.addLiminal_of_open hopen
  refine ⟨?_, ?_, ?_, ?_⟩
  · rw [parts_addLiminals, ← List.append_assoc, Layout.run_append, h.run]
    rfl
  · rw [hgroup, h.group]
    rfl
  · intro htokens
    have hbetween : (σ.addLiminal t).between = σ.between ++ [t] := rfl
    rw [hbetween, h.between htokens]
    rfl
  · rw [hclosed]
    exact h.newest

theorem Laid.addToken (h : d.Laid before σ) {t : Token} (hhead : t.head = []) (htail : t.tail = []) :
    (d.addToken t).Laid before (σ.addToken t.word) := by
  have hparts : t.parts = [.token t.word] := by simp [Token.parts, hhead, htail]
  refine ⟨?_, ?_, ?_, ?_⟩
  · rw [parts_addToken, hparts, ← List.append_assoc, Layout.run_append, h.run]
    rfl
  · have hgroup := h.group
    unfold Draft.addToken
    cases htokens : d.tokens with
    | nil =>
        rw [htokens] at hgroup
        simp [Layout.addToken, hgroup]
    | cons newest older =>
        rw [htokens] at hgroup
        simp [Layout.addToken, hgroup]
  · intro _
    unfold Draft.addToken
    split <;> rfl
  · -- in front of the new token stands the draft as it was
    have hfront : ∀ newest older, (d.addToken t).tokens = newest :: older →
        newest.tail = [] ∧
          older.reverse.flatMap Token.parts ++ Part.ofLiminals newest.head = d.parts ∧
          older.map Token.word = d.tokens.map Token.word := by
      intro newest older heq
      unfold Draft.addToken at heq
      split at heq
      · rename_i htokens
        cases heq
        simp [Token.addHead, hhead, htail, parts, htokens]
      · rename_i last older htokens
        cases heq
        simp [hhead, htail, parts, htokens]
    intro newest older heq
    obtain ⟨hnewest, hparts, hvalues⟩ := hfront newest older heq
    rw [hparts, h.run, hvalues]
    exact ⟨hnewest, h.group, rfl⟩

theorem Laid.addTokens (h : d.Laid before σ) {ts : List Token}
    (hbare : ∀ t ∈ ts, t.head = [] ∧ t.tail = []) :
    (ts.foldl Draft.addToken d).Laid before (σ.run (ts.map fun t => .token t.word)) := by
  induction ts generalizing d σ with
  | nil => exact h
  | cons t ts ih =>
      obtain ⟨⟨hhead, htail⟩, hts⟩ := List.forall_mem_cons.mp hbare
      exact ih (h.addToken hhead htail) hts

theorem parts_addTokens (d : Draft) {ts : List Token}
    (hbare : ∀ t ∈ ts, t.head = [] ∧ t.tail = []) :
    (ts.foldl addToken d).parts = d.parts ++ ts.map fun t => .token t.word := by
  induction ts generalizing d with
  | nil => simp
  | cons t ts ih =>
      obtain ⟨⟨hhead, htail⟩, hts⟩ := List.forall_mem_cons.mp hbare
      rw [List.foldl_cons, ih _ hts, parts_addToken]
      simp [Token.parts, hhead, htail]

theorem bare_of_mem_expansion {name : Text} {body : List Lexeme} {t : Token}
    (h : t ∈ Token.expansion name body) : t.head = [] ∧ t.tail = [] := by
  cases body with
  | nil => cases h
  | cons l ls =>
      rcases List.mem_cons.mp h with rfl | h
      · exact ⟨rfl, rfl⟩
      · obtain ⟨m, _, rfl⟩ := List.mem_map.mp h
        exact ⟨rfl, rfl⟩

theorem parts_expansion (name : Text) (body : List Lexeme) :
    (Token.expansion name body).map (fun t => Part.token t.word) =
      (body.map fun m => ⟨m.text, .expanded⟩).map .token := by
  cases body with
  | nil => rfl
  | cons l ls =>
      simp [Token.expansion, Token.ofLexeme, Token.word, Token.origin, Token.isExpanded,
        Function.comp_def]

/-- What a semantic lexeme leads to: its parts are laid out behind the draft, inside a line. -/
theorem Laid.addLexeme {macros : MacroTable} (hmacros : macros.EmptiesNamed)
    (h : d.Laid before σ) {l : Lexeme} (hl : l.isSemantic = true) (hplace : σ.place ≠ .hidden) :
    (d.addLexeme macros l).parts = d.parts ++ σ.lexemeParts macros l ∧
      (d.addLexeme macros l).Laid before (σ.run (σ.lexemeParts macros l)) ∧
      (σ.run (σ.lexemeParts macros l)).place = .inside ∧
      (σ.run (σ.lexemeParts macros l)).closed = σ.closed := by
  have hvisible : (l.isSemantic && σ.place != .hidden) = true := by simp [hl, hplace]
  unfold Draft.addLexeme Layout.lexemeParts
  rw [if_pos hvisible]
  cases hget : macros.get? l.text with
  | none =>
      refine ⟨?_, h.addToken rfl rfl, rfl, rfl⟩
      rw [parts_addToken]
      rfl
  | some body =>
      cases body with
      | nil =>
          have hname := hmacros _ hget
          have hopen : σ.place.closes (.ofText l.text) = false ∨ σ.group = [] := by
            rw [hname]
            cases σ.place <;> exact Or.inl rfl
          refine ⟨parts_addLiminals d _, h.addLiminal hopen, ?_,
            (Layout.addLiminal_of_open hopen).2⟩
          simp only [Layout.run_cons, Layout.run_nil, Layout.step, Layout.addLiminal, hname]
          cases hat : σ.place <;> first | rfl | exact absurd hat hplace
      | cons m ms =>
          have hbare : ∀ t ∈ Token.expansion l.text (m :: ms), t.head = [] ∧ t.tail = [] :=
            fun t ht => bare_of_mem_expansion ht
          have hparts := parts_addTokens d hbare
          have hlaid := h.addTokens hbare
          rw [parts_expansion] at hparts hlaid
          obtain ⟨hinside, hclosed, _⟩ := Layout.run_tokens (σ := σ)
            (Or.inl (List.cons_ne_nil (⟨m.text, .expanded⟩ : Word)
              (ms.map fun m => ⟨m.text, .expanded⟩)))
          exact ⟨hparts, hlaid, hinside, hclosed⟩

/-- A place from which the rest of a line is taken: inside it, or in front of a token. -/
def Ready (σ : Layout) (ls : List Lexeme) : Prop :=
  σ.place = .inside ∨ σ.place ≠ .hidden ∧ ∃ l ms, ls = l :: ms ∧ l.isSemantic = true

/-- What a draft makes of the rest of a line is laid out behind it: up to the end of the line, or up
to the token that starts the next statement. -/
def Progress.Laid (macros : MacroTable) (before : List Part) (d : Draft) (σ : Layout)
    (ls : List Lexeme) : Progress → Prop
  | .open d' => d'.parts = d.parts ++ σ.partsOf macros ls ∧ d'.Laid before (σ.after macros ls) ∧
      (σ.after macros ls).place = .margin ∧ (σ.after macros ls).closed = σ.closed
  | .closed s rest => ∃ front, ls = front ++ rest ∧
      s.parts = d.parts ++ σ.partsOf macros front ∧ (σ.after macros front).group = [] ∧
      (σ.after macros front).closed = σ.closed ++ [s.values] ∧
      (rest = [] ∧ (σ.after macros front).place = .margin ∨
        (σ.after macros front).place = .stray ∧ Row rest ∧
          ∃ l ms, rest = l :: ms ∧ l.isSemantic = true)

theorem Progress.Laid.cons {macros : MacroTable} {d' : Draft} {l : Lexeme} {ls : List Lexeme}
    {p : Progress}
    (h : p.Laid macros before d' (σ.run (σ.lexemeParts macros l)) ls)
    (hparts : d'.parts = d.parts ++ σ.lexemeParts macros l)
    (hclosed : (σ.run (σ.lexemeParts macros l)).closed = σ.closed) :
    p.Laid macros before d σ (l :: ls) := by
  cases p with
  | «open» e =>
      obtain ⟨he, hlaid, hplace, hclosed'⟩ := h
      rw [Progress.Laid, Layout.after_cons, Layout.partsOf, ← List.append_assoc, ← hparts]
      exact ⟨he, hlaid, hplace, hclosed'.trans hclosed⟩
  | closed s rest =>
      obtain ⟨front, rfl, hs, hgroup, hclosed', hrest⟩ := h
      refine ⟨l :: front, rfl, ?_, ?_⟩
      · rw [hs, hparts, Layout.partsOf, List.append_assoc]
      · rw [Layout.after_cons, ← hclosed]
        exact ⟨hgroup, hclosed', hrest⟩

theorem place_of_ready {ls : List Lexeme} {l : Lexeme} (h : Ready σ (l :: ls))
    (hl : l.isSemantic = false) : σ.place = .inside := by
  rcases h with hinside | ⟨_, m, ms, heq, hm⟩
  · exact hinside
  · obtain ⟨rfl, _⟩ := List.cons.inj heq
    rw [hl] at hm
    cases hm

theorem tokens_ne_nil_of_statement? {s : Statement} (h : d.statement? = some s) :
    d.tokens ≠ [] := by
  intro hnil
  simp [statement?, hnil] at h

theorem Laid.group_eq_nil (h : d.Laid before σ) : σ.group = [] ↔ d.tokens = [] := by
  rw [h.group, List.map_eq_nil_iff]

theorem take_end_laid {macros : MacroTable} (h : d.Laid before σ) {e : Lexeme}
    (he : e.kind = .lineEnd) (htold : e.Told) (hready : Ready σ [e]) :
    (take macros [e] d).1.Laid macros before d σ [e] := by
  obtain ⟨hrole, hplain, hend⟩ := htold.lineEnd he
  have hinside := place_of_ready hready hplain
  have hplace : (σ.addLiminal e.text).place = .margin := by
    rw [Layout.place_addLiminal, hend, hinside]
    rfl
  have hparts : σ.partsOf macros [e] = [.liminal e.text] :=
    Layout.partsOf_of_plain macros σ (by simpa using hplain)
  have hafter : σ.after macros [e] = σ.addLiminal e.text := by
    rw [Layout.after, hparts]
    rfl
  unfold take
  simp only [hrole]
  unfold take
  cases hs : (d.addLiminals [e.text]).statement? with
  | none =>
      have htokens : (d.addLiminals [e.text]).tokens = [] := statement?_eq_none_iff_tokens.mp hs
      have hgroup : σ.group = [] := h.group_eq_nil.mpr htokens
      dsimp only [Progress.Laid]
      rw [hafter, hparts]
      exact ⟨parts_addLiminals d _, h.addLiminal (Or.inr hgroup), hplace,
        (Layout.addLiminal_of_open (Or.inr hgroup)).2⟩
  | some s =>
      have hgroup : σ.group ≠ [] := fun hnil =>
        tokens_ne_nil_of_statement? hs (h.group_eq_nil.mp hnil)
      have hcloses : σ.place.closes (.ofText e.text) = true := by
        rw [hend, hinside]
        rfl
      obtain ⟨hempty, hclosed⟩ := Layout.addLiminal_of_closing hcloses hgroup
      refine ⟨[e], rfl, ?_, ?_⟩
      · rw [parts_of_statement? hs, hparts]
        exact parts_addLiminals d _
      · rw [hafter, values_of_statement? hs]
        refine ⟨hempty, ?_, Or.inl ⟨rfl, hplace⟩⟩
        rw [hclosed, h.group, Token.map_value_map_word]
        rfl

theorem hidden_laid (macros : MacroTable) {ls : List Lexeme} (hrow : Row ls)
    (h : d.Laid before σ) (hplace : σ.place = .hidden) :
    σ.partsOf macros ls = Part.ofLiminals (ls.map Lexeme.text) ∧
      (d.addLiminals (ls.map Lexeme.text)).Laid before (σ.after macros ls) ∧
      (σ.after macros ls).place = .margin ∧ (σ.after macros ls).closed = σ.closed := by
  induction hrow generalizing d σ with
  | @last e he htold =>
      obtain ⟨_, _, hend⟩ := htold.lineEnd he
      have hopen : σ.place.closes (.ofText e.text) = false ∨ σ.group = [] :=
        Or.inl (hplace ▸ LinePlace.closes_hidden _)
      have hmargin : (σ.addLiminal e.text).place = .margin := by
        rw [Layout.place_addLiminal, hend, hplace]
        rfl
      rw [Layout.after_cons, Layout.partsOf, Layout.lexemeParts_of_hidden macros hplace]
      exact ⟨rfl, h.addLiminal hopen, hmargin, (Layout.addLiminal_of_open hopen).2⟩
  | @cons l ls hl htold hrow ih =>
      have hopen : σ.place.closes (.ofText l.text) = false ∨ σ.group = [] :=
        Or.inl (hplace ▸ LinePlace.closes_hidden _)
      have hnext : (σ.addLiminal l.text).place = .hidden := by
        rw [Layout.place_addLiminal, hplace]
        have hne := (htold.role hl).2.2.2.2
        cases hk : Liminal.ofText l.text <;> first | rfl | exact absurd hk hne
      obtain ⟨hpartsOf, hlaid, hmargin, hclosed⟩ := ih (h.addLiminal hopen) hnext
      have hsplit : d.addLiminals ((l :: ls).map Lexeme.text) =
          (d.addLiminals [l.text]).addLiminals (ls.map Lexeme.text) := by
        simp [Draft.addLiminals]
      rw [Layout.after_cons, Layout.partsOf, Layout.lexemeParts_of_hidden macros hplace, hsplit]
      exact ⟨congrArg (Part.liminal l.text :: ·) hpartsOf, hlaid, hmargin,
        hclosed.trans (Layout.addLiminal_of_open hopen).2⟩

/-- Behind the separator that closed a statement, up to the token that starts the next. -/
theorem stray_laid (macros : MacroTable) {ls : List Lexeme} (hrow : Row ls)
    (hplace : σ.place = .stray) (hgroup : σ.group = []) {rest between : List Lexeme}
    (hbetween : ls.takeWhile (fun m => m.isLiminal || m.isContinuation) = between)
    (hrest : ls.dropWhile (fun m => m.isLiminal || m.isContinuation) = rest) :
    (σ.after macros between).group = [] ∧ (σ.after macros between).closed = σ.closed ∧
      (rest = [] ∧ (σ.after macros between).place = .margin ∨
        (σ.after macros between).place = .stray ∧ Row rest ∧
          ∃ l ms, rest = l :: ms ∧ l.isSemantic = true) := by
  subst hbetween hrest
  induction hrow generalizing σ with
  | @last e he htold =>
      obtain ⟨hrole, hnot, hend⟩ := htold.lineEnd he
      have hplain : (e.isLiminal || e.isContinuation) = true := by
        simp [Lexeme.isLiminal, hrole]
      have hopen : σ.place.closes (.ofText e.text) = false ∨ σ.group = [] := Or.inr hgroup
      have hparts : σ.lexemeParts macros e = [.liminal e.text] :=
        Layout.lexemeParts_of_not_semantic macros σ hnot
      have hmargin : (σ.addLiminal e.text).place = .margin := by
        rw [Layout.place_addLiminal, hend, hplace]
        rfl
      obtain ⟨hgroup', hclosed⟩ := Layout.addLiminal_of_open hopen
      rw [List.takeWhile_cons_of_pos (by exact hplain), List.takeWhile_nil,
        List.dropWhile_cons_of_pos (by exact hplain), List.dropWhile_nil, Layout.after_cons, hparts]
      exact ⟨hgroup'.trans hgroup, hclosed, Or.inl ⟨rfl, hmargin⟩⟩
  | @cons l ls hl htold hrow ih =>
      cases hplain : (l.isLiminal || l.isContinuation) with
      | false =>
          have hsemantic : l.isSemantic = true := by simp [Lexeme.isSemantic_eq, hplain]
          rw [List.takeWhile_cons_of_neg (by simp [hplain]),
            List.dropWhile_cons_of_neg (by simp [hplain])]
          exact ⟨hgroup, rfl, Or.inr ⟨hplace, .cons hl htold hrow, l, ls, rfl, hsemantic⟩⟩
      | true =>
          have hnot : l.isSemantic = false := by simp [Lexeme.isSemantic_eq, hplain]
          have hopen : σ.place.closes (.ofText l.text) = false ∨ σ.group = [] := Or.inr hgroup
          have hnext : (σ.addLiminal l.text).place = .stray := by
            obtain ⟨hwhite, hcomment, hmark, hseparator, hend⟩ := htold.role hl
            rw [Layout.place_addLiminal, hplace]
            cases hrole : l.role with
            | whitespace => rw [hwhite hrole]; rfl
            | comment =>
                rw [hcomment hrole]
                split <;> rfl
            | separator => rw [hseparator hrole]; rfl
            | continuation => rw [hmark hrole]; rfl
            | semantic => simp [Lexeme.isSemantic, hrole] at hnot
          obtain ⟨hgroup', hclosed⟩ := Layout.addLiminal_of_open hopen
          rw [List.takeWhile_cons_of_pos (by exact hplain),
            List.dropWhile_cons_of_pos (by exact hplain), Layout.after_cons,
            Layout.lexemeParts_of_not_semantic macros σ hnot, ← hclosed]
          exact ih hnext (hgroup'.trans hgroup)

/-- A separator that closes a statement takes what is liminal behind it along. -/
theorem closed_laid (macros : MacroTable) (h : d.Laid before σ) {l : Lexeme} {ls : List Lexeme}
    (hrow : Row ls) (hrole : l.role = .separator)
    (htext : Liminal.ofText l.text = .separator) (hinside : σ.place = .inside) {s : Statement}
    (hs : (d.addLiminals (((l :: ls).takeWhile fun m =>
      m.isLiminal || m.isContinuation).map Lexeme.text)).statement? = some s) :
    (Progress.closed s ((l :: ls).dropWhile fun m => m.isLiminal || m.isContinuation)).Laid macros
      before d σ (l :: ls) := by
  have hnot : l.isSemantic = false := by simp [Lexeme.isSemantic, hrole]
  have hplain : (l.isLiminal || l.isContinuation) = true := by simp [Lexeme.isLiminal, hrole]
  have hgroup : σ.group ≠ [] := fun hnil =>
    tokens_ne_nil_of_statement? hs (h.group_eq_nil.mp hnil)
  have hcloses : σ.place.closes (.ofText l.text) = true := by
    rw [htext, hinside]
    rfl
  have hstray : (σ.addLiminal l.text).place = .stray := by
    rw [Layout.place_addLiminal, htext, hinside]
    cases hg : σ.group with
    | nil => exact absurd hg hgroup
    | cons newest older => rfl
  obtain ⟨hempty, hclosed⟩ := Layout.addLiminal_of_closing hcloses hgroup
  obtain ⟨hempty', hclosed', hrest⟩ := stray_laid macros hrow hstray hempty rfl rfl
  rw [List.takeWhile_cons_of_pos (by exact hplain)] at hs
  rw [List.dropWhile_cons_of_pos (by exact hplain)]
  have hbetween : ∀ m ∈ l :: ls.takeWhile fun m => m.isLiminal || m.isContinuation,
      m.isSemantic = false := by
    intro m hm
    rcases List.mem_cons.mp hm with rfl | hm
    · exact hnot
    · have hkept := List.all_eq_true.mp (List.all_takeWhile (l := ls)) m hm
      simp [Lexeme.isSemantic_eq, hkept]
  refine ⟨l :: ls.takeWhile fun m => m.isLiminal || m.isContinuation, ?_, ?_, ?_⟩
  · rw [List.cons_append, List.takeWhile_append_dropWhile]
  · rw [parts_of_statement? hs, parts_addLiminals, Layout.partsOf_of_plain macros σ hbetween]
  · rw [Layout.after_cons, Layout.lexemeParts_of_not_semantic macros σ hnot]
    refine ⟨hempty', ?_, hrest⟩
    rw [values_of_statement? hs]
    refine hclosed'.trans (hclosed.trans ?_)
    rw [h.group, Token.map_value_map_word]
    rfl

theorem marked_laid (macros : MacroTable) (h : d.Laid before σ) {l : Lexeme} {ls : List Lexeme}
    (hrow : Row ls) (hrole : l.role = .continuation) (htext : Liminal.ofText l.text = .mark)
    (hinside : σ.place = .inside) :
    (Progress.open (d.addLiminals ((l :: ls).map Lexeme.text))).Laid macros before d σ
      (l :: ls) := by
  have hnot : l.isSemantic = false := by simp [Lexeme.isSemantic, hrole]
  have hparts := Layout.lexemeParts_of_not_semantic macros σ hnot
  have hopen : σ.place.closes (.ofText l.text) = false ∨ σ.group = [] := by
    rw [htext, hinside]
    exact Or.inl rfl
  have hhidden : (σ.addLiminal l.text).place = .hidden := by
    rw [Layout.place_addLiminal, htext, hinside]
    rfl
  obtain ⟨hpartsOf, hlaid, hmargin, hclosed⟩ :=
    hidden_laid macros hrow (h.addLiminal hopen) hhidden
  have hsplit : d.addLiminals ((l :: ls).map Lexeme.text) =
      (d.addLiminals [l.text]).addLiminals (ls.map Lexeme.text) := by
    simp [Draft.addLiminals]
  dsimp only [Progress.Laid]
  rw [Layout.after_cons, Layout.partsOf, hparts, hsplit, parts_addLiminals, parts_addLiminals,
    List.append_assoc]
  exact ⟨congrArg (d.parts ++ Part.liminal l.text :: ·) hpartsOf.symm, hlaid, hmargin,
    hclosed.trans (Layout.addLiminal_of_open hopen).2⟩

/-- Taking the rest of a line lays it out. -/
theorem take_laid {macros : MacroTable} (hmacros : macros.EmptiesNamed) {ls : List Lexeme}
    (hrow : Row ls) (h : d.Laid before σ) (hready : Ready σ ls) :
    (take macros ls d).1.Laid macros before d σ ls := by
  induction hrow generalizing d σ with
  | last he htold => exact take_end_laid h he htold hready
  | @cons l ls hl htold hrow ih =>
      obtain ⟨hwhite, hcomment, hmark, hseparator, _⟩ := htold.role hl
      -- inside a line a lexeme that closes nothing is kept, and the rest is taken from inside too
      have hkept : l.isSemantic = false → (σ.place.closes (.ofText l.text) = false ∨ σ.group = []) →
          (σ.addLiminal l.text).place = .inside →
          (take macros ls (d.addLiminals [l.text])).1.Laid macros before d σ (l :: ls) := by
        intro hnot hopen hnext
        have hparts := Layout.lexemeParts_of_not_semantic macros σ hnot
        have hbehind : (take macros ls (d.addLiminals [l.text])).1.Laid macros before
            (d.addLiminals [l.text]) (σ.run (σ.lexemeParts macros l)) ls := by
          rw [hparts]
          exact ih (h.addLiminal hopen) (Or.inl hnext)
        refine hbehind.cons ?_ ?_
        · rw [hparts]
          exact parts_addLiminals d _
        · rw [hparts]
          exact (Layout.addLiminal_of_open hopen).2
      have hinside : l.isSemantic = false → σ.place = .inside := place_of_ready hready
      unfold take
      cases hrole : l.role with
      | whitespace =>
          have hnot : l.isSemantic = false := by simp [Lexeme.isSemantic, hrole]
          refine hkept hnot (Or.inl ?_) ?_
          · rw [hwhite hrole, hinside hnot]
            rfl
          · rw [Layout.place_addLiminal, hwhite hrole, hinside hnot]
            rfl
      | comment =>
          have hnot : l.isSemantic = false := by simp [Lexeme.isSemantic, hrole]
          refine hkept hnot (Or.inl ?_) ?_
          · rw [hcomment hrole, hinside hnot]
            split <;> rfl
          · rw [Layout.place_addLiminal, hcomment hrole, hinside hnot]
            split <;> rfl
      | separator =>
          have hnot : l.isSemantic = false := by simp [Lexeme.isSemantic, hrole]
          dsimp only
          split
          · rename_i hnone
            have hgroup : σ.group = [] := by
              have htokens := statement?_eq_none_iff_tokens.mp hnone
              exact h.group_eq_nil.mpr htokens
            refine hkept hnot (Or.inr hgroup) ?_
            rw [Layout.place_addLiminal, hseparator hrole, hinside hnot, hgroup]
            rfl
          · rename_i s hs
            exact closed_laid macros h hrow hrole (hseparator hrole) (hinside hnot) hs
      | continuation =>
          have hnot : l.isSemantic = false := by simp [Lexeme.isSemantic, hrole]
          exact marked_laid macros h hrow hrole (hmark hrole) (hinside hnot)
      | semantic =>
          have hsemantic : l.isSemantic = true := by simp [Lexeme.isSemantic, hrole]
          have hplace : σ.place ≠ .hidden := by
            rcases hready with hin | ⟨hvisible, _⟩
            · rw [hin]
              decide
            · exact hvisible
          obtain ⟨hparts, hlaid, hnext, hclosed⟩ := h.addLexeme hmacros hsemantic hplace
          exact (ih hlaid (Or.inl hnext)).cons hparts hclosed

end Draft

end FreeForm
