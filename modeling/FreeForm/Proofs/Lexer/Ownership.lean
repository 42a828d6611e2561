import FreeForm.Proofs.Draft.Heads
import FreeForm.Proofs.Lexer.Expanded
import FreeForm.Proofs.Lexer.Position
import FreeForm.Proofs.Lexer.RoundTrip
import FreeForm.Proofs.Scan.FirstToken

namespace FreeForm

/-!
# Which token liminal text belongs to

Liminal text belongs to the token in front of it, and only the first token of a statement can have
some in front. Without directives, macros and leading continuation marks the text between two
statements goes to the first of them: a statement is complete before its line end is looked behind,
and what a separator leaves over starts with a token. So only the text in front of the first
statement is a head, and none is left over at the end.
-/

namespace Phase

/-- In the statement that a phase is at, no token but the first has a head. -/
def HeadFirst : Phase → Prop
  | building d => d.HeadFirst
  | complete s _ => s.HeadFirst

theorem HeadFirst.addLiminals {p : Phase} (h : p.HeadFirst) (liminals : List Text) :
    (p.addLiminals liminals).HeadFirst := by
  cases p <;> exact h

theorem HeadFirst.last {p : Phase} (h : p.HeadFirst) : ∀ s ∈ p.last, s.HeadFirst := by
  cases p with
  | building d => exact fun s hs => Draft.HeadFirst.of_statement? h (Option.mem_toList.mp hs)
  | complete s ahead => exact List.forall_mem_singleton.mpr (Statement.HeadFirst.addTail h ahead)

end Phase

theorem Lexer.headFirst_takeContent (r : Reader) {d : Draft} (hd : d.HeadFirst)
    {content : List Lexeme} {phase : Phase} (h : (takeContent r d content).result = .ok phase) :
    (∀ s ∈ (takeContent r d content).statements, s.HeadFirst) ∧ phase.HeadFirst := by
  fun_induction takeContent r d content with
  | case1 d content e hr => cases h
  | case2 d content d' rest joined hr d'' findings ht =>
      have htaken := (hd.of_resume hr).take r.macros rest
      rw [ht] at htaken
      cases h
      exact ⟨List.forall_mem_nil _, htaken⟩
  | case3 d content d' rest joined hr s findings ht =>
      have htaken := (hd.of_resume hr).take r.macros rest
      rw [ht] at htaken
      obtain ⟨last, hlast, hs⟩ := htaken
      cases h
      exact ⟨List.forall_mem_nil _, hlast.of_statement? hs⟩
  | case4 d content d' rest joined hr s l ls findings ht ih =>
      have htaken := (hd.of_resume hr).take r.macros rest
      rw [ht] at htaken
      obtain ⟨last, hlast, hs⟩ := htaken
      obtain ⟨hstatements, hphase⟩ := ih (Draft.headFirst_ofLiminals []) h
      exact ⟨List.forall_mem_cons.mpr ⟨hlast.of_statement? hs, hstatements⟩, hphase⟩

namespace Phase

theorem HeadFirst.takeParts {p : Phase} (hp : p.HeadFirst) {r : Reader} {parts : LineParts}
    {phase : Phase} (h : (p.takeParts r parts).result = .ok phase) :
    (∀ s ∈ (p.takeParts r parts).statements, s.HeadFirst) ∧ phase.HeadFirst := by
  obtain ⟨lead, content⟩ := parts
  cases content with
  | nil =>
      cases h
      exact ⟨List.forall_mem_nil _, hp.addLiminals lead⟩
  | cons l ls =>
      cases p with
      | building d => exact Lexer.headFirst_takeContent r (hp.addLiminals lead) h
      | complete s ahead =>
          obtain ⟨hstatements, hphase⟩ :=
            Lexer.headFirst_takeContent r (Draft.headFirst_ofLiminals []) h
          have hs := Statement.HeadFirst.addTail hp (ahead ++ lead)
          exact ⟨List.forall_mem_cons.mpr ⟨hs, hstatements⟩, hphase⟩

theorem HeadFirst.takeReading {p : Phase} (hp : p.HeadFirst) {reading : Reading LineParts}
    {ss : List Statement} {phase : Phase} {events : List Event}
    (h : p.takeReading reading = ⟨ss, .ok phase, events⟩) :
    (∀ s ∈ ss, s.HeadFirst) ∧ phase.HeadFirst := by
  obtain ⟨result, r, es⟩ := reading
  cases result with
  | error e => cases h
  | ok parts =>
      obtain ⟨rfl, hresult, _⟩ := Taking.mk.inj h
      exact hp.takeParts hresult

end Phase

theorem headFirst_assemble (env : Environment) {lines : Source} {r : Reader} {p : Phase}
    (hp : p.HeadFirst) {phase : Phase} (h : (assemble env lines r p).result = .ok phase) :
    ∀ s ∈ (assemble env lines r p).statements ++ phase.last, s.HeadFirst := by
  induction lines generalizing r p with
  | nil =>
      cases h
      exact hp.last
  | cons line lines ih =>
      obtain ⟨ss, behind, events, htaken, hrest, hstatements⟩ := exists_of_assemble_cons h
      obtain ⟨hss, hbehind⟩ := hp.takeReading htaken
      rw [hstatements, List.append_assoc]
      exact List.forall_mem_append.mpr ⟨hss, ih hbehind hrest⟩

/-- Only the first token of a statement has a head. -/
theorem Lexer.headFirst_of_run {env : Environment} {source : Source} {macros : MacroTable}
    {name : Option Path} {d : Document} (h : ((start source macros name).run env).result = .ok d) :
    ∀ s ∈ d.statements, s.HeadFirst := by
  obtain ⟨phase, hphase, rfl⟩ := exists_of_run h
  exact headFirst_assemble env (p := .building (.ofLiminals [])) (Draft.headFirst_ofLiminals [])
    hphase

namespace Phase

/-- A phase is at a statement that has its first token, with a given text in front of it. -/
def LedBy (lead : List Text) : Phase → Prop
  | building d => d.Begun lead
  | complete s _ => s.lead = lead

/-- The first of some statements, or else of the phase behind them, has a given text in front of it,
and the others have none. -/
def Leads (lead : List Text) : List Statement → Phase → Prop
  | [], p => p.LedBy lead
  | s :: ss, p => s.lead = lead ∧ Leads [] ss p

variable {lead : List Text} {p : Phase}

theorem LedBy.addLiminals (h : p.LedBy lead) (liminals : List Text) :
    (p.addLiminals liminals).LedBy lead := by
  cases p with
  | building d => exact Draft.Begun.addLiminals h liminals
  | complete s ahead => exact h

theorem LedBy.exists_last (h : p.LedBy lead) :
    ∃ s, p.last = [s] ∧ s.lead = lead ∧ p.trailing = [] := by
  cases p with
  | building d =>
      obtain ⟨htokens, hlead⟩ := h
      obtain ⟨s, hs, _⟩ := Draft.exists_statement? htokens
      exact ⟨s, by simp [last, hs], (Draft.lead_of_statement? hs).trans hlead,
        by simp [trailing, hs]⟩
  | complete s ahead => exact ⟨s.addTail ahead, rfl, (s.lead_addTail ahead).trans h, rfl⟩

theorem Leads.append {ss more : List Statement} {q : Phase} (h : Leads lead ss p)
    (hmore : ∀ lead, p.LedBy lead → Leads lead more q) : Leads lead (ss ++ more) q := by
  induction ss generalizing lead with
  | nil => exact hmore lead h
  | cons s ss ih => exact ⟨h.1, ih h.2⟩

theorem Leads.exists_first {ss : List Statement} (h : Leads lead ss p) :
    ∃ s rest, ss ++ p.last = s :: rest ∧ s.lead = lead ∧ (∀ s ∈ rest, s.lead = []) ∧
      p.trailing = [] := by
  induction ss generalizing lead with
  | nil =>
      obtain ⟨s, hs, hlead, htrailing⟩ := LedBy.exists_last h
      exact ⟨s, [], hs, hlead, List.forall_mem_nil _, htrailing⟩
  | cons s ss ih =>
      obtain ⟨next, rest, hrest, hnext, hothers, htrailing⟩ := ih h.2
      refine ⟨s, ss ++ p.last, rfl, h.1, ?_, htrailing⟩
      rw [hrest]
      exact List.forall_mem_cons.mpr ⟨hnext, hothers⟩

end Phase

section Plain

variable {r : Reader} (hmacros : r.macros = .empty)
include hmacros

theorem Lexer.leads_takeContent {d : Draft} {content : List Lexeme}
    (hcontent : d.tokens ≠ [] ∨ ∃ l ls, content = l :: ls ∧ l.isSemantic = true) {phase : Phase}
    (h : (takeContent r d content).result = .ok phase) :
    Phase.Leads d.lead (takeContent r d content).statements phase := by
  fun_induction takeContent r d content with
  | case1 d content e hr => cases h
  | case2 d content d' rest joined hr d'' findings ht =>
      have hbegun := Draft.begun_of_resume hr hcontent
      rw [← hmacros, ht] at hbegun
      cases h
      exact hbegun
  | case3 d content d' rest joined hr s findings ht =>
      have hbegun := Draft.begun_of_resume hr hcontent
      rw [← hmacros, ht] at hbegun
      obtain ⟨last, hlast, hs⟩ := hbegun
      cases h
      exact (Draft.lead_of_statement? hs).trans hlast.2
  | case4 d content d' rest joined hr s l ls findings ht ih =>
      have hbegun := Draft.begun_of_resume hr hcontent
      rw [← hmacros, ht] at hbegun
      obtain ⟨last, hlast, hs⟩ := hbegun
      have hbehind := ih (.inr ⟨l, ls, rfl, Draft.isSemantic_of_take ht⟩) h
      exact ⟨(Draft.lead_of_statement? hs).trans hlast.2, hbehind⟩

/-- Behind the first token of a text a row without a leading mark gives no token a head but those in
front of which it stands already. -/
theorem Phase.LedBy.takeParts {lead : List Text} {p : Phase} (hp : p.LedBy lead) {row : List Lexeme}
    (hrow : Unmarked row) {phase : Phase}
    (h : (p.takeParts r (.ofLexemes row)).result = .ok phase) :
    Leads lead (p.takeParts r (.ofLexemes row)).statements phase := by
  cases hrow with
  | liminal hls =>
      rw [LineParts.ofLexemes_of_liminal hls] at h ⊢
      cases h
      exact hp.addLiminals _
  | @token front hfront l hl rest =>
      rw [LineParts.ofLexemes_append hfront (Lexeme.not_of_isSemantic hl).1] at h ⊢
      cases p with
      | building d =>
          obtain ⟨htokens, hlead⟩ := Draft.Begun.addLiminals hp (front.map Lexeme.text)
          have hbehind := Lexer.leads_takeContent hmacros (.inl htokens) h
          rwa [hlead] at hbehind
      | complete s ahead =>
          have hbehind := Lexer.leads_takeContent hmacros (.inr ⟨l, rest, rfl, hl⟩) h
          exact ⟨(s.lead_addTail _).trans hp, hbehind⟩

omit hmacros in
/-- A line without a directive or a leading mark is taken as a row without one. -/
theorem exists_row_of_takeReading (env : Environment) (hactive : r.isSuppressed = false)
    {line : Text} (hline : Line.isDirective line = false ∧ Line.opensWithMark line = false)
    {p behind : Phase} {ss : List Statement} {events : List Event}
    (h : p.takeReading (r.read env (.ok line)) = ⟨ss, .ok behind, events⟩) :
    ∃ row o, Unmarked row ∧ (r.read env (.ok line)).reader = r.opened o (r.lineNumber + 1) ∧
      p.takeParts (r.opened o (r.lineNumber + 1)) (.ofLexemes row) = ⟨ss, .ok behind, events⟩ := by
  cases hscan : scanLine r.scanner.openDelimiter line with
  | error e =>
      rw [Reader.read_of_scanLine_error env hactive hscan] at h
      cases h
  | ok scanned =>
      obtain ⟨row, o⟩ := scanned
      rw [Reader.read_of_scanLine env hactive hline.1 hscan] at h ⊢
      exact ⟨row, o, unmarked_of_scanLine hscan hline.2, rfl, h⟩

variable (env : Environment) (hactive : r.isSuppressed = false) {lines : List Text}
  (hlines : ∀ line ∈ lines, Line.isDirective line = false ∧ Line.opensWithMark line = false)
include hactive hlines

theorem leads_assemble {lead : List Text} {p : Phase} (hp : p.LedBy lead) {phase : Phase}
    (h : (assemble env (lines.map .ok) r p).result = .ok phase) :
    Phase.Leads lead (assemble env (lines.map .ok) r p).statements phase := by
  induction lines generalizing r p lead with
  | nil =>
      cases h
      exact hp
  | cons line lines ih =>
      obtain ⟨hline, hlines⟩ := List.forall_mem_cons.mp hlines
      rw [List.map_cons] at h ⊢
      obtain ⟨ss, behind, events, htaken, hrest, hstatements⟩ := exists_of_assemble_cons h
      obtain ⟨row, o, hrow, hreader, hparts⟩ := exists_row_of_takeReading env hactive hline htaken
      have hresult : (p.takeParts (r.opened o (r.lineNumber + 1)) (.ofLexemes row)).result =
          .ok behind := by rw [hparts]
      have hled := hp.takeParts (r := r.opened o (r.lineNumber + 1)) hmacros hrow hresult
      rw [hparts] at hled
      rw [hreader] at hrest hstatements
      rw [hstatements]
      exact hled.append fun lead hbehind =>
        ih (r := r.opened o (r.lineNumber + 1)) hmacros hactive hlines hbehind hrest

/-- Lines in front of which no token stands hold no token, or the first of their statements takes
all of the liminal text in front of it. -/
theorem exists_leads_assemble {d : Draft} (hd : d.tokens = []) {phase : Phase}
    (h : (assemble env (lines.map .ok) r (.building d)).result = .ok phase) :
    ((assemble env (lines.map .ok) r (.building d)).statements = [] ∧ phase.last = []) ∨
      ∃ lead, Phase.Leads lead (assemble env (lines.map .ok) r (.building d)).statements phase := by
  induction lines generalizing r d with
  | nil =>
      cases h
      refine .inl ⟨rfl, ?_⟩
      simp [Phase.last, Draft.statement?_eq_none_iff_tokens.mpr hd]
  | cons line lines ih =>
      obtain ⟨hline, hlines⟩ := List.forall_mem_cons.mp hlines
      rw [List.map_cons] at h ⊢
      obtain ⟨ss, behind, events, htaken, hrest, hstatements⟩ := exists_of_assemble_cons h
      obtain ⟨row, o, hrow, hreader, hparts⟩ := exists_row_of_takeReading env hactive hline htaken
      rw [hreader] at hrest hstatements
      rw [hstatements]
      cases hrow with
      | liminal hls =>
          rw [LineParts.ofLexemes_of_liminal hls] at hparts
          cases hparts
          exact ih (r := r.opened o (r.lineNumber + 1)) hmacros hactive hlines
            (d := d.addLiminals _) hd hrest
      | @token front hfront l hl rest =>
          rw [LineParts.ofLexemes_append hfront (Lexeme.not_of_isSemantic hl).1] at hparts
          have htaken : Lexer.takeContent (r.opened o (r.lineNumber + 1))
              (d.addLiminals (front.map Lexeme.text)) (l :: rest) = ⟨ss, .ok behind, events⟩ :=
            hparts
          have hresult : (Lexer.takeContent (r.opened o (r.lineNumber + 1))
              (d.addLiminals (front.map Lexeme.text)) (l :: rest)).result = .ok behind := by
            rw [htaken]
          have hled := Lexer.leads_takeContent (r := r.opened o (r.lineNumber + 1)) hmacros
            (.inr ⟨l, rest, rfl, hl⟩) hresult
          rw [htaken] at hled
          exact .inr ⟨_, hled.append fun lead hbehind =>
            leads_assemble (r := r.opened o (r.lineNumber + 1)) hmacros env hactive hlines
              hbehind hrest⟩

end Plain

theorem Lexer.lead_of_run {env : Environment} {t : Text} {name : Option Path} {d : Document}
    (hlines : ∀ line ∈ t.lines, Line.isDirective line = false ∧ Line.opensWithMark line = false)
    (h : ((start (.ofText t) .empty name).run env).result = .ok d) :
    (∀ s ∈ d.statements.tail, s.lead = []) ∧ (d.statements ≠ [] → d.trailing = []) := by
  obtain ⟨phase, hphase, rfl⟩ := exists_of_run h
  rcases exists_leads_assemble (r := .start name .empty) rfl env rfl hlines rfl hphase with
    ⟨hstatements, hlast⟩ | ⟨lead, hleads⟩
  · have hnone : (assemble env (.ofText t) (.start name .empty)
        (.building (.ofLiminals []))).statements ++ phase.last = [] := by
      rw [hlast, List.append_nil]
      exact hstatements
    dsimp only
    rw [hnone]
    exact ⟨List.forall_mem_nil _, fun hne => absurd rfl hne⟩
  · obtain ⟨s, rest, hwhole, _, hrest, htrailing⟩ := hleads.exists_first
    refine ⟨fun s' hs' => ?_, fun _ => htrailing⟩
    have hmem : s' ∈ (s :: rest).tail := hwhole ▸ hs'
    exact hrest s' hmem

/-- In a document, and in every document that it includes, no token but the first of a statement has
a head. Of a text without directives, macros and leading continuation marks only the first statement
has one, and no text is left over behind the last. -/
theorem heads_lexText {files : Files} {c : Configuration} {t : Text} {d : Document}
    (h : (lexText files c t).result = .ok d) :
    ((∀ s ∈ d.statements, s.HeadFirst) ∧
      ∀ path e, d.Includes path e → ∀ s ∈ e.statements, s.HeadFirst) ∧
    (c.macroTable = .ok .empty →
      (∀ line ∈ t.lines, Line.isDirective line = false ∧ Line.opensWithMark line = false) →
      (∀ s ∈ d.statements.tail, ∀ head ∈ s.heads, head = []) ∧
        (d.statements ≠ [] → d.trailing = [])) := by
  obtain ⟨macros, hmacros, hrun⟩ := exists_macroTable_of_lexText h
  have hfirst := Lexer.headFirst_of_run hrun
  refine ⟨⟨hfirst, fun path e he => ?_⟩, fun hempty hlines => ?_⟩
  · obtain ⟨_, _, _, _, hnested⟩ := Lexer.exists_run_of_includes files c.includeRoot
      c.maxIncludeDepth c.maxIncludeDepth hrun he
    exact Lexer.headFirst_of_run hnested
  · rw [hempty] at hmacros
    obtain rfl := Except.ok.inj hmacros
    obtain ⟨hleads, htrailing⟩ := Lexer.lead_of_run hlines hrun
    refine ⟨fun s hs => ?_, htrailing⟩
    exact (hfirst s (List.mem_of_mem_tail hs)).heads_eq_nil (hleads s hs)

/-- Two statements, the first of which a separator completes, with comments, blank lines and a
divided string around them. -/
theorem heads_lexText_of_two :
    ∃ d, (lexText .none .standard
        " ! c\n ;a = 'x&\n y' ;; ! d\nb&\n\t! e\n c;\n ! f\n".toList).result = .ok d ∧
      d.values = [["a".toList, "=".toList, "'x y'".toList], ["b".toList, "c".toList]] ∧
      (∀ s ∈ d.statements.tail, ∀ head ∈ s.heads, head = []) ∧ d.trailing = [] := by
  have hvalues : (lexText .none .standard
      " ! c\n ;a = 'x&\n y' ;; ! d\nb&\n\t! e\n c;\n ! f\n".toList).result.toOption.map
        Document.values =
      some [["a".toList, "=".toList, "'x y'".toList], ["b".toList, "c".toList]] := by
    decide +kernel
  obtain ⟨d, hresult, hd⟩ := exists_of_map_toOption hvalues
  obtain ⟨_, hplain⟩ := heads_lexText hresult
  obtain ⟨hheads, htrailing⟩ := hplain rfl (by decide +kernel)
  refine ⟨d, hresult, hd, hheads, htrailing fun hnil => ?_⟩
  rw [Document.values, hnil] at hd
  cases hd

/-- A leading mark behind a complete statement is the head of the next one. -/
example : (lexText .none .standard "a\n&b\n".toList).result.toOption.map
    (fun d => d.statements.map Statement.heads) = some [[[]], [["&".toList]]] := by
  decide +kernel

end FreeForm
