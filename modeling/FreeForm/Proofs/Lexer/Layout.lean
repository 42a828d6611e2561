import FreeForm.Proofs.Draft.Seams
import FreeForm.Proofs.Lexer.Position
import FreeForm.Proofs.Scan.Rows

namespace FreeForm

/-!
# The layout of a source

The lines of a source are laid out as they are assembled: behind each line the statements complete
so far are those that the parts read so far lay out, and the draft that is open is the statement
that they leave open. A line whose first lexeme is not joined to the token in front of it adds the
parts of its own lexemes; a line whose first lexeme is joined takes back the break in front of it.
-/

theorem Draft.laid_ofLiminals {before : List Part} {σ : Layout} (hrun : Layout.start.run before = σ)
    (hgroup : σ.group = []) : (ofLiminals []).Laid before σ := by
  refine ⟨?_, hgroup, fun h => absurd rfl h, fun _ _ h => by cases h⟩
  rw [parts_ofLiminals, Part.ofLiminals_nil, List.append_nil]
  exact hrun

namespace Phase

def Laid (before : List Part) (σ : Layout) : Phase → Prop
  | .building d => d.Laid before σ
  | .complete s ahead =>
      σ.group = [] ∧ Layout.start.run (before ++ (s.parts ++ Part.ofLiminals ahead)) = σ

/-- Between two lines the parts so far, behind some statements that are done, have a layout. -/
structure LaidOut (before : List Part) (done : List (List Text)) (σ : Layout) (p : Phase) :
    Prop where
  laid : p.Laid before σ
  place : σ.place = .margin
  closed : σ.closed = done ++ p.due.map Statement.values

variable {before : List Part} {done : List (List Text)} {σ : Layout} {p : Phase}

theorem Laid.run (h : p.Laid before σ) : Layout.start.run (before ++ p.parts) = σ := by
  cases p with
  | building d => exact Draft.Laid.run h
  | complete s ahead => exact h.2

theorem Laid.addLiminal (h : p.Laid before σ) {t : Text}
    (hopen : σ.place.closes (.ofText t) = false) :
    (p.addLiminals [t]).Laid before (σ.addLiminal t) := by
  cases p with
  | building d => exact Draft.Laid.addLiminal h (Or.inl hopen)
  | complete s ahead =>
      refine ⟨(Layout.addLiminal_of_open (Or.inl hopen)).1.trans h.1, ?_⟩
      rw [Part.ofLiminals_append, ← List.append_assoc s.parts, ← List.append_assoc,
        Layout.run_append, h.2]
      rfl

@[simp] theorem due_addLiminals (p : Phase) (liminals : List Text) :
    (p.addLiminals liminals).due = p.due := by
  cases p <;> rfl

end Phase

/-- What some lexemes of a line amount to is laid out: the statements they complete, and the phase
behind them. -/
def Taking.LaidOut (before : List Part) (done : List (List Text)) (ps : List Part) (τ : Layout)
    (t : Taking) : Prop :=
  ∃ phase, t.result = .ok phase ∧ t.statements.flatMap Statement.parts ++ phase.parts = ps ∧
    phase.LaidOut (before ++ t.statements.flatMap Statement.parts)
      (done ++ t.statements.map Statement.values) τ

theorem Taking.LaidOut.prepend {before : List Part} {done : List (List Text)} {ps : List Part}
    {τ : Layout} {t : Taking} {ss : List Statement}
    (h : t.LaidOut (before ++ ss.flatMap Statement.parts) (done ++ ss.map Statement.values) ps τ)
    (es : List Event) :
    (t.prepend ss es).LaidOut before done (ss.flatMap Statement.parts ++ ps) τ := by
  obtain ⟨phase, hresult, hparts, hphase⟩ := h
  refine ⟨phase, hresult, ?_, ?_⟩
  · simp [Taking.prepend, ← hparts]
  · simpa [Taking.prepend] using hphase

namespace Lexer

variable {r : Reader} {before : List Part} {d : Draft} {σ : Layout}

/-- The rest of a line is laid out, statement after statement. -/
theorem takeOn_laid (hmacros : r.macros.EmptiesNamed) {ls : List Lexeme} (hrow : Row ls)
    (h : d.Laid before σ) (hready : Draft.Ready σ ls) :
    (takeOn r d ls).LaidOut before σ.closed (d.parts ++ σ.partsOf r.macros ls)
      (σ.after r.macros ls) := by
  induction hn : ls.length using Nat.strongRecOn generalizing ls d σ before with
  | ind n ih =>
      have hlaid := Draft.take_laid hmacros hrow h hready
      unfold takeOn
      cases htake : d.take r.macros ls with
      | mk progress findings =>
          rw [htake] at hlaid
          cases progress with
          | «open» d' =>
              obtain ⟨hparts, hd', hplace, hclosed⟩ := hlaid
              refine ⟨.building d', rfl, hparts, ?_, hplace, ?_⟩
              · simpa [Phase.Laid] using hd'
              · simpa [Phase.due] using hclosed
          | closed s rest =>
              obtain ⟨front, rfl, hparts, hgroup, hclosed, hrest⟩ := hlaid
              have hrun : Layout.start.run (before ++ s.parts) = σ.after r.macros front := by
                rw [hparts, ← List.append_assoc, Layout.run_append, h.run]
                rfl
              rcases hrest with ⟨rfl, hplace⟩ | ⟨hplace, hrest, l, ms, rfl, hl⟩
              · rw [List.append_nil]
                refine ⟨.complete s [], rfl, ?_, ⟨hgroup, ?_⟩, hplace, ?_⟩
                · simpa [Phase.parts] using hparts
                · simpa using hrun
                · simpa [Phase.due] using hclosed
              · -- what a separator leaves over is shorter, and nothing is joined to its front
                have hlt : (l :: ms).length < n := by
                  rw [← hn]
                  exact Draft.length_lt_of_take htake (List.cons_ne_nil l ms)
                have hfresh := Draft.laid_ofLiminals hrun hgroup
                have hvisible : (σ.after r.macros front).place ≠ .hidden := by
                  rw [hplace]
                  decide
                have hbehind := ih _ hlt hrest hfresh (Or.inr ⟨hvisible, l, ms, rfl, hl⟩) rfl
                have hone : s.parts = [s].flatMap Statement.parts :=
                  (List.flatMap_singleton Statement.parts s).symm
                rw [hclosed, hone] at hbehind
                have hall := Taking.LaidOut.prepend hbehind (findings.map r.diagnosed)
                dsimp only
                rw [takeContent_of_tokens_nil rfl (Lexeme.not_of_isSemantic hl).2,
                  Layout.partsOf_append, Layout.after_append, ← List.append_assoc, ← hparts]
                simpa using hall

/-- The content of a line is laid out, if its first lexeme is not joined to the token before. -/
theorem takeContent_laid (hmacros : r.macros.EmptiesNamed) (h : d.Laid before σ)
    {content : List Lexeme} (hopening : Draft.Opening σ content) {marks : List Text}
    {rest : List Lexeme} (hsplit : Draft.splitMark content = (marks, rest))
    (hresume : d.resume content = .ok (d.addLiminals marks, rest, [])) :
    (takeContent r d content).LaidOut before σ.closed (d.parts ++ σ.partsOf r.macros content)
      (σ.after r.macros content) := by
  have hentered := hopening.entered r.macros hsplit
  have hrest := takeOn_laid hmacros hentered.row (h.addMark hopening hsplit) hentered.ready
  rw [takeContent_eq_takeOn, hresume, hentered.parts, hentered.after, ← List.append_assoc,
    ← Draft.parts_addLiminals, ← hentered.closed]
  exact hrest

/-- The parts that the content of a line is taken into: those of its lexemes behind the draft, or
behind the draft whose newest token was joined. -/
def ContentParts (r : Reader) (before : List Part) (d : Draft) (σ : Layout)
    (content : List Lexeme) (ps : List Part) : Prop :=
  ps = d.parts ++ σ.partsOf r.macros content ∧
    d.resume content =
      .ok (d.addLiminals (Draft.splitMark content).1, (Draft.splitMark content).2, []) ∨
  ∃ previous older f rest merged, d.tokens = previous :: older ∧
    (Draft.splitMark content).2 = f :: rest ∧
    Continuation.rejoin previous d.liminals (!(Draft.splitMark content).1.isEmpty) f =
      .ok (some merged) ∧
    ps = Draft.parts ⟨merged :: older, []⟩ ++
      (Layout.start.run (before ++ Draft.parts ⟨merged :: older, []⟩)).partsOf r.macros rest

/-- Whatever is joined, the content of a line leaves a layout behind. -/
theorem exists_laid_of_takeContent (hmacros : r.macros.EmptiesNamed) (h : d.Laid before σ)
    {content : List Lexeme} (hopening : Draft.Opening σ content)
    (hplain : (σ.after r.macros content).plain = true) {phase : Phase}
    (hok : (takeContent r d content).result = .ok phase) :
    ∃ ps τ, (takeContent r d content).LaidOut before σ.closed ps τ ∧ τ.plain = true ∧
      ContentParts r before d σ content ps := by
  cases hresume : d.resume content with
  | error e =>
      rw [takeContent_eq_takeOn, hresume] at hok
      cases hok
  | ok resumed =>
      obtain ⟨d', rest, events⟩ := resumed
      rcases Draft.resume_cases hresume with
        ⟨previous, older, fragment, merged, htokens, hsplit, hmerged, rfl, _⟩ | ⟨rfl, rfl, rfl⟩
      · obtain ⟨_, hsemantic, l, _, _, _, hform⟩ := Continuation.rejoin_eq_some hmerged
        have hhead : merged.head = previous.head := by rw [hform]
        have htail : merged.tail = [] := by
          rw [hform]
          rfl
        obtain ⟨τ, hjoined, hinside, hclosed, hkept⟩ := h.join htokens hhead htail
        have hpair : Draft.splitMark content = ((Draft.splitMark content).1, fragment :: rest) :=
          Prod.ext rfl hsplit
        have hrest := (hopening.entered r.macros hpair).row.tail_of_isSemantic hsemantic
        have hlaid := takeOn_laid (r := r) hmacros hrest hjoined (Or.inl hinside)
        have hplainRest : (τ.after r.macros rest).plain = true := by
          -- behind a join the line is taken from inside, where nothing makes it a directive
          rw [Layout.plain_after_of_ne_margin hrest (by rw [hinside]; decide)]
          exact hkept (Layout.plain_of_run hplain)
        rw [takeContent_eq_takeOn, hresume, ← hclosed]
        refine ⟨_, _, hlaid, hplainRest, .inr ⟨previous, older, fragment, rest, merged, htokens,
          hsplit, hmerged, ?_⟩⟩
        rw [hjoined.run]
      · exact ⟨_, _, takeContent_laid hmacros h hopening rfl hresume, hplain, .inl ⟨rfl, hresume⟩⟩

end Lexer

namespace Phase

variable {r : Reader} {before : List Part} {done : List (List Text)} {σ : Layout} {p : Phase}

/-- The liminal text at the front of a line is laid out, up to the content if there is any. -/
theorem Laid.addLead (macros : MacroTable) (h : p.Laid before σ) {ls : List Lexeme} (hrow : Row ls)
    (hplace : σ.place = .margin ∨ σ.place = .front) {lead : List Text} {content : List Lexeme}
    (hcut : LineParts.ofLexemes ls = ⟨lead, content⟩) :
    ∃ τ, (p.addLiminals lead).Laid before τ ∧ τ.closed = σ.closed ∧
      σ.partsOf macros ls = Part.ofLiminals lead ++ τ.partsOf macros content ∧
      σ.after macros ls = τ.after macros content ∧
      (content = [] ∧ τ.place = .margin ∨ Draft.Opening τ content) := by
  obtain ⟨rfl, rfl⟩ : (ls.takeWhile (·.isLiminal)).map Lexeme.text = lead ∧
      ls.dropWhile (·.isLiminal) = content := by
    simpa [LineParts.ofLexemes] using hcut
  clear hcut
  induction hrow generalizing σ p with
  | @last e he htold =>
      obtain ⟨hrole, hnot, hend⟩ := htold.lineEnd he
      have hliminal : e.isLiminal = true := by simp [Lexeme.isLiminal, hrole]
      have hparts := Layout.lexemeParts_of_not_semantic macros σ hnot
      have hmargin : (σ.addLiminal e.text).place = .margin := by
        rw [Layout.place_addLiminal, hend]
        rcases hplace with hplace | hplace <;> rw [hplace] <;> rfl
      rw [List.takeWhile_cons_of_pos hliminal, List.dropWhile_cons_of_pos hliminal,
        Layout.after_cons, Layout.partsOf, hparts]
      exact ⟨σ.addLiminal e.text, h.addLiminal (LinePlace.closes_of_front hplace _),
        (Layout.addLiminal_of_front hplace e.text).2, rfl, rfl, Or.inl ⟨rfl, hmargin⟩⟩
  | @cons l ls hl htold hrow ih =>
      cases hliminal : l.isLiminal with
      | false =>
          have hneg : ¬l.isLiminal = true := by simp [hliminal]
          have hnone : p.addLiminals [] = p := by
            cases p <;> simp [addLiminals, Draft.addLiminals]
          rw [List.takeWhile_cons_of_neg hneg, List.dropWhile_cons_of_neg hneg, List.map_nil, hnone]
          exact ⟨σ, h, rfl, rfl, rfl, Or.inr ⟨.cons hl htold hrow, hplace, l, ls, rfl, hliminal⟩⟩
      | true =>
          have hnot : l.isSemantic = false := by simp [Lexeme.isSemantic_eq, hliminal]
          have hparts := Layout.lexemeParts_of_not_semantic macros σ hnot
          have hnext := Layout.front_of_isLiminal hl htold hliminal hplace
          obtain ⟨τ, hτ, hclosed, hpartsOf, hafter, hcontent⟩ :=
            ih (h.addLiminal (LinePlace.closes_of_front hplace _)) hnext
          have hsplit : ∀ ms : List Text,
              p.addLiminals (l.text :: ms) = (p.addLiminals [l.text]).addLiminals ms := by
            intro ms
            cases p <;> simp [addLiminals, Draft.addLiminals]
          rw [List.takeWhile_cons_of_pos hliminal, List.dropWhile_cons_of_pos hliminal,
            List.map_cons, hsplit, Layout.after_cons, Layout.partsOf, hparts]
          exact ⟨τ, hτ, hclosed.trans (Layout.addLiminal_of_front hplace l.text).2,
            congrArg (Part.liminal l.text :: ·) hpartsOf, hafter, hcontent⟩

/-- A line is taken as its content is: behind the statement that was due, into the draft that is
open. A line without content is laid out as it stands. -/
theorem LaidOut.takeParts_cases (macros : MacroTable) (h : p.LaidOut before done σ)
    {ls : List Lexeme} (hrow : Row ls) (r : Reader) :
    (p.takeParts r (.ofLexemes ls)).LaidOut before done (p.parts ++ σ.partsOf macros ls)
        (σ.after macros ls) ∧ (LineParts.ofLexemes ls).content = [] ∨
      ∃ ss d τ,
        p.takeParts r (.ofLexemes ls) =
          (Lexer.takeContent r d (LineParts.ofLexemes ls).content).prepend ss [] ∧
        d.Laid (before ++ ss.flatMap Statement.parts) τ ∧
        Draft.Opening τ (LineParts.ofLexemes ls).content ∧
        τ.closed = done ++ ss.map Statement.values ∧
        σ.after macros ls = τ.after macros (LineParts.ofLexemes ls).content ∧
        p.parts ++ σ.partsOf macros ls = ss.flatMap Statement.parts ++
          (d.parts ++ τ.partsOf macros (LineParts.ofLexemes ls).content) ∧
        (σ.group = [] ∧ d.tokens = [] ∨ ss = [] ∧ ∃ open₀, p = .building open₀ ∧
          d = open₀.addLiminals (LineParts.ofLexemes ls).lead) := by
  obtain ⟨hlaid, hplace, hclosed⟩ := h
  generalize hcut : LineParts.ofLexemes ls = parts
  obtain ⟨lead, content⟩ := parts
  obtain ⟨τ, hτ, hkept, hpartsOf, hafter, hcontent⟩ :=
    hlaid.addLead macros hrow (Or.inl hplace) hcut
  have hparts : p.parts ++ σ.partsOf macros ls =
      (p.addLiminals lead).parts ++ τ.partsOf macros content := by
    rw [hpartsOf, parts_addLiminals, List.append_assoc]
  rw [hparts, hafter]
  have hdue : τ.closed = done ++ (p.addLiminals lead).due.map Statement.values := by
    rw [hkept, hclosed, due_addLiminals]
  rcases hcontent with ⟨rfl, hmargin⟩ | hopening
  · left
    refine ⟨⟨p.addLiminals lead, rfl, ?_, ?_, hmargin, ?_⟩, rfl⟩
    · simp [takeParts, Layout.partsOf]
    · rw [takeParts, List.flatMap_nil, List.append_nil]
      exact hτ
    · rw [takeParts, List.map_nil, List.append_nil]
      exact hdue
  · right
    obtain ⟨l, ls', rfl, hl⟩ := hopening.first
    unfold takeParts
    cases p with
    | building open₀ =>
        refine ⟨[], open₀.addLiminals lead, τ, rfl, ?_, hopening, hdue, rfl, rfl,
          .inr ⟨rfl, open₀, rfl, rfl⟩⟩
        rw [List.flatMap_nil, List.append_nil]
        exact hτ
    | complete s ahead =>
        refine ⟨[s.addTail (ahead ++ lead)], .ofLiminals [], τ, rfl, ?_, hopening, ?_, rfl, ?_,
          .inl ⟨hlaid.1, rfl⟩⟩
        · refine Draft.laid_ofLiminals ?_ hτ.1
          simpa using hτ.2
        · simpa [due, addLiminals] using hdue
        · simp [parts, addLiminals]

/-- Whatever a line joins, the parts so far are extended by it, and laid out. -/
theorem LaidOut.exists_takeParts (hmacros : r.macros.EmptiesNamed) (h : p.LaidOut before done σ)
    {ls : List Lexeme} (hrow : Row ls) (hplain : (σ.after r.macros ls).plain = true)
    {phase : Phase} (hok : (p.takeParts r (.ofLexemes ls)).result = .ok phase) :
    ∃ ps τ, (p.takeParts r (.ofLexemes ls)).LaidOut before done ps τ ∧ τ.plain = true ∧
      Layout.Extends r.macros ls (before ++ p.parts) (before ++ ps) := by
  have hwhole : ∀ {ps}, ps = p.parts ++ σ.partsOf r.macros ls →
      (∀ w f rest, σ.Meets ls w f rest → Text.Apart w.value f.text) →
      Layout.Extends r.macros ls (before ++ p.parts) (before ++ ps) := by
    rintro _ rfl happart
    have hrun := h.laid.run
    rw [← List.append_assoc]
    subst hrun
    exact .whole happart
  rcases h.takeParts_cases r.macros hrow r with
    ⟨hlaid, hnone⟩ | ⟨ss, d, τ, htaken, hd, hopening, hclosed, hafter, hparts, hopen⟩
  · refine ⟨_, _, hlaid, hplain, hwhole rfl fun w f rest hmeets => ?_⟩
    have hfirst := hmeets.first
    rw [hnone] at hfirst
    cases hfirst
  · rw [htaken] at hok ⊢
    rw [hafter] at hplain
    obtain ⟨ps, τ', hlaid, hτ', hcontent⟩ :=
      Lexer.exists_laid_of_takeContent hmacros hd hopening hplain hok
    rw [hclosed] at hlaid
    refine ⟨_, _, hlaid.prepend [], hτ', ?_⟩
    rcases hcontent with
      ⟨rfl, hresume⟩ | ⟨previous, older, f, rest, merged, htokens, hsplit, hmerged, rfl⟩
    · refine hwhole hparts.symm fun w f rest hmeets => ?_
      rcases hopen with ⟨hgroup, _⟩ | ⟨rfl, open₀, rfl, rfl⟩
      · have hnewest := hmeets.newest
        rw [hgroup] at hnewest
        cases hnewest
      · exact Draft.Laid.apart_of_meets h.laid hmeets hresume
    · rcases hopen with ⟨_, hnil⟩ | ⟨rfl, open₀, rfl, rfl⟩
      · rw [hnil] at htokens
        cases htokens
      · rw [List.flatMap_nil, List.append_nil, List.nil_append]
        exact Draft.Laid.extends_of_rejoin r.macros h.laid htokens hsplit hmerged

/-- A line whose neighbours stand apart is laid out as it stands. -/
theorem LaidOut.takeParts_of_apart (hmacros : r.macros = .empty) (h : p.LaidOut before done σ)
    {ls : List Lexeme} (hrow : Row ls)
    (hseams : ∀ q ∈ (σ.after .empty ls).seams, Text.Apart q.1.value q.2.value) :
    (p.takeParts r (.ofLexemes ls)).LaidOut before done (p.parts ++ σ.partsOf .empty ls)
      (σ.after .empty ls) := by
  rcases h.takeParts_cases .empty hrow r with
    ⟨hlaid, _⟩ | ⟨ss, d, τ, htaken, hd, hopening, hclosed, hafter, hparts, _⟩
  · exact hlaid
  · have hnamed : r.macros.EmptiesNamed := by
      rw [hmacros]
      exact fun name hname => by cases hname
    rw [hafter] at hseams
    have hresume := Draft.resume_of_apart hd hopening rfl hseams
    have hlaid := Lexer.takeContent_laid hnamed hd hopening rfl hresume
    rw [hclosed, hmacros] at hlaid
    rw [htaken, hparts, hafter]
    exact hlaid.prepend []

theorem parts_last (p : Phase) :
    p.last.flatMap Statement.parts ++ Part.ofLiminals p.trailing = p.parts := by
  cases p with
  | complete s ahead => simp [last, trailing, parts]
  | building d =>
      cases hs : d.statement? with
      | none =>
          have htokens := Draft.statement?_eq_none_iff_tokens.mp hs
          simp [last, trailing, parts, hs, Draft.parts, htokens]
      | some s => simp [last, trailing, parts, hs, Draft.parts_of_statement? hs]

theorem LaidOut.values_eq (h : p.LaidOut before done σ) :
    σ.values = done ++ p.last.map Statement.values := by
  obtain ⟨hlaid, _, hclosed⟩ := h
  cases p with
  | complete s ahead =>
      have hopen : σ.close = σ := by simp [Layout.close, hlaid.1]
      rw [Layout.values, hopen, hclosed]
      simp [due, last]
  | building d =>
      have hgroup : σ.group = d.tokens.map Token.word := Draft.Laid.group hlaid
      rw [due, List.map_nil, List.append_nil] at hclosed
      cases hs : d.statement? with
      | none =>
          rw [Draft.statement?_eq_none_iff_tokens.mp hs, List.map_nil] at hgroup
          simp [Layout.values, Layout.close, hgroup, hclosed, last, hs]
      | some s =>
          have hne : d.tokens ≠ [] := Draft.tokens_ne_nil_of_statement? hs
          obtain ⟨newest, older, hcons⟩ := List.exists_cons_of_ne_nil hne
          rw [hcons, List.map_cons] at hgroup
          simp [Layout.values, Layout.close, hgroup, hclosed, last, hs,
            Draft.values_of_statement? hs, hcons]

end Phase

end FreeForm
