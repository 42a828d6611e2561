import FreeForm.Proofs.Draft.Separators
import FreeForm.Proofs.Lexer.Assembly
import FreeForm.Proofs.Reader.Parts

namespace FreeForm

/-!
# Separators end statements

A statement is read from a portion of each of some lines. Of a portion it takes the lexemes from the
first that is not liminal to the next continuation mark, and none of these is a separator between
two of its tokens. Only a separator at the front of a line, or behind the continuation mark that ends
one, can stand inside a statement.
-/

open Lexeme

/-- The lexemes of one line that a statement is read from. -/
structure Portion where
  line : Nat
  lexemes : List Lexeme

namespace Portion

def placed (p : Portion) : List (Nat × Lexeme) :=
  p.lexemes.map (p.line, ·)

/-- The text of some portions. -/
def text (ps : List Portion) : Text :=
  concat (ps.flatMap lexemes)

/-- The lexemes of some portions that are not left out. -/
def live (ps : List Portion) : List Lexeme :=
  ps.flatMap fun p => Lexeme.live p.lexemes

theorem text_concat (ps : List Portion) (n : Nat) (ls : List Lexeme) :
    text (ps ++ [⟨n, ls⟩]) = text ps ++ concat ls := by
  simp [text]

theorem live_concat (ps : List Portion) (n : Nat) (ls : List Lexeme) :
    live (ps ++ [⟨n, ls⟩]) = live ps ++ Lexeme.live ls := by
  simp [live]

end Portion

theorem Portion.placed_concat (ps : List Portion) (n : Nat) (ls : List Lexeme) :
    (ps ++ [Portion.mk n ls]).flatMap placed = ps.flatMap placed ++ ls.map (n, ·) := by
  simp [placed]

/-- The portions that a statement is read from, in the order of their lines. -/
structure Statement.ReadFrom (s : Statement) (ps : List Portion) : Prop where
  lines : (ps.map Portion.line).Pairwise (· < ·)
  source : s.source = Portion.text ps
  tokens : Token.MadeOf s.bare (Portion.live ps)
  separators : Unseparated (Portion.live ps)

structure Draft.ReadFrom (d : Draft) (ps : List Portion) : Prop where
  lines : (ps.map Portion.line).Pairwise (· < ·)
  source : d.source = Portion.text ps
  fresh : d.Fresh
  follows : d.Follows (Portion.live ps)

theorem Portion.lines_concat {ps : List Portion} (h : (ps.map line).Pairwise (· < ·)) {n : Nat}
    (hn : ∀ p ∈ ps, p.line < n) (ls : List Lexeme) :
    ((ps ++ [Portion.mk n ls]).map line).Pairwise (· < ·) := by
  rw [List.map_append, List.pairwise_append]
  refine ⟨h, by simp, ?_⟩
  intro m hm k hk
  obtain ⟨p, hp, rfl⟩ := List.mem_map.mp hm
  obtain rfl : k = n := by simpa using hk
  exact hn p hp

namespace Draft

theorem readFrom_ofLiminals (n : Nat) : (ofLiminals []).ReadFrom [⟨n, []⟩] := by
  refine ⟨by simp, rfl, fresh_ofLiminals [], ?_, ?_, ?_⟩
  · exact unbroken_of_plain (by simp [Portion.live, live_of_liminal])
  · simp [Portion.live, live_of_liminal]
  · exact Token.madeOf_nil (by simp [Portion.live, live_of_liminal])

theorem ReadFrom.addLead {d : Draft} {ps : List Portion} (h : d.ReadFrom ps) {n : Nat}
    (hn : ∀ p ∈ ps, p.line < n) {lead : List Lexeme} (hlead : ∀ l ∈ lead, l.isLiminal = true) :
    (d.addLiminals (lead.map Lexeme.text)).ReadFrom (ps ++ [⟨n, lead⟩]) := by
  refine ⟨Portion.lines_concat h.lines hn lead, ?_, h.fresh.addLiminals _, ?_⟩
  · rw [Portion.text_concat, source_addLiminals, h.source, concat, List.flatMap_def]
  · rw [Portion.live_concat, live_of_liminal hlead, List.append_nil]
    exact h.follows.addLiminals _

theorem ReadFrom.statement {d : Draft} {ps : List Portion} (h : d.ReadFrom ps) {s : Statement}
    (hs : d.statement? = some s) : s.ReadFrom ps := by
  refine ⟨h.lines, ?_, ?_, h.follows.unbroken.unseparated⟩
  · rw [source_of_statement? hs, h.source]
  · rw [bare_of_statement? hs]
    exact h.follows.tokens

/-- What a draft makes of the content of line `n`, whose liminal front it has. -/
def Progress.ReadFrom (ps : List Portion) (n : Nat) (lead content : List Lexeme) :
    Progress → Prop
  | .open d => d.ReadFrom (ps ++ [⟨n, lead ++ content⟩])
  | .closed s rest => ∃ taken, content = taken ++ rest ∧
      s.ReadFrom (ps ++ [⟨n, lead ++ taken⟩]) ∧ ∀ l ∈ rest.head?, l.isLiminal = false

/-- Lexemes that a statement can go on or start with, which the front of a line cannot. -/
structure IsContent (content : List Lexeme) : Prop where
  ne_nil : content ≠ []
  head : ∀ l ∈ content.head?, l.isLiminal = false
  marks : ∀ l ∈ content, l.kind = .continuation → l.text = Continuation.mark

theorem readFrom_take {d d' : Draft} {ps : List Portion} {n : Nat} {lead : List Lexeme}
    (hd : d.ReadFrom (ps ++ [⟨n, lead⟩])) (hlead : ∀ l ∈ lead, l.isLiminal = true)
    {content rest : List Lexeme} (hcontent : IsContent content) {joined : List Event}
    (hr : d.resume content = .ok (d', rest, joined)) :
    (take .empty rest d').1.ReadFrom ps n lead content := by
  obtain ⟨hne, hhead, hmarks⟩ := hcontent
  obtain ⟨l, content, rfl⟩ := List.exists_cons_of_ne_nil hne
  have hl := hhead l rfl
  obtain ⟨front, hfront, hfollows, hlive⟩ := hd.follows.of_resume hl hr
  have hfresh := hd.fresh.of_resume hr
  have hresumed := source_of_resume hd.fresh (fun _ => hmarks) hr
  have hsource := source_take .empty rest d'
  have htaken := follows_of_take rest hfollows
  have hlines : ∀ ls, ((ps ++ [Portion.mk n ls]).map Portion.line).Pairwise (· < ·) := by
    intro ls
    have hsame := hd.lines
    rw [List.map_append] at hsame ⊢
    exact hsame
  rw [Portion.live_concat, live_of_liminal hlead, List.append_nil] at htaken
  rw [hd.source, Portion.text_concat] at hresumed
  cases hprogress : (take .empty rest d').1 with
  | «open» d'' =>
      rw [hprogress] at htaken hsource
      have hopen : d''.Follows (Portion.live ps ++ front ++ uncut rest) := htaken
      rw [List.append_assoc, ← hlive lead rest [] hlead (List.append_nil rest).symm,
        ← hfront, ← Portion.live_concat ps n] at hopen
      refine ⟨hlines _, ?_, hfresh.of_take hprogress, hopen⟩
      rw [Portion.text_concat, concat_append, ← List.append_assoc, ← hresumed]
      exact hsource
  | closed s back =>
      rw [hprogress] at htaken hsource
      obtain ⟨taken, rfl, hseparated, hmade, hback⟩ := htaken
      rw [List.append_assoc, ← hlive lead taken back hlead rfl, ← Portion.live_concat ps n]
        at hseparated hmade
      refine ⟨front ++ taken, ?_, ⟨hlines _, ?_, hmade, hseparated⟩, ?_⟩
      · rw [hfront, List.append_assoc]
      · have hclosed : s.source ++ concat back = d'.source ++ concat (taken ++ back) := hsource
        rw [hresumed, hfront, concat_append, concat_append, ← List.append_assoc,
          ← List.append_assoc] at hclosed
        rw [Portion.text_concat, concat_append, concat_append, ← List.append_assoc,
          ← List.append_assoc]
        exact List.append_cancel_right hclosed
      · intro m hm
        have hsemantic := hback m hm
        simp only [isSemantic_eq, Bool.not_eq_true', Bool.or_eq_false_iff] at hsemantic
        exact hsemantic.1

end Draft

theorem Statement.ReadFrom.addLead {s : Statement} {ahead : List Text} {ps : List Portion}
    (h : (s.addTail ahead).ReadFrom ps) {n : Nat} (hn : ∀ p ∈ ps, p.line < n)
    {lead : List Lexeme} (hlead : ∀ l ∈ lead, l.isLiminal = true) :
    (s.addTail (ahead ++ lead.map Lexeme.text)).ReadFrom (ps ++ [⟨n, lead⟩]) := by
  obtain ⟨hlines, hsource, htokens, hseparators⟩ := h
  have hlive : Portion.live (ps ++ [⟨n, lead⟩]) = Portion.live ps := by
    rw [Portion.live_concat, live_of_liminal hlead, List.append_nil]
  refine ⟨Portion.lines_concat hlines hn lead, ?_, ?_, ?_⟩
  · rw [Portion.text_concat, ← hsource]
    simp [concat, List.flatMap_def]
  · rw [hlive]
    simpa using htokens
  · rw [hlive]
    exact hseparators

def Phase.ReadFrom : Phase → List Portion → Prop
  | .building d, ps => d.ReadFrom ps
  | .complete s ahead, ps => (s.addTail ahead).ReadFrom ps

/-- Statements and the phase behind them are read one after another from lexemes up to line `n`. -/
def ReadOff (n : Nat) (placed : List (Nat × Lexeme)) (ss : List Statement) (phase : Phase) : Prop :=
  ∃ (readings : List (Statement × List Portion)) (ps : List Portion),
    readings.map Prod.fst = ss ∧ (∀ x ∈ readings, x.1.ReadFrom x.2) ∧
      phase.ReadFrom ps ∧ (∀ p ∈ ps, p.line ≤ n) ∧
      (readings.flatMap Prod.snd ++ ps).flatMap Portion.placed = placed

namespace ReadOff

theorem nil {n : Nat} {phase : Phase} {ps : List Portion} (h : phase.ReadFrom ps)
    (hn : ∀ p ∈ ps, p.line ≤ n) : ReadOff n (ps.flatMap Portion.placed) [] phase :=
  ⟨[], ps, rfl, by simp, h, hn, rfl⟩

theorem cons {n : Nat} {placed : List (Nat × Lexeme)} {ss : List Statement} {phase : Phase}
    (h : ReadOff n placed ss phase) {s : Statement} {ps : List Portion} (hs : s.ReadFrom ps) :
    ReadOff n (ps.flatMap Portion.placed ++ placed) (s :: ss) phase := by
  obtain ⟨readings, qs, rfl, hreadings, hphase, hn, rfl⟩ := h
  refine ⟨(s, ps) :: readings, qs, rfl, ?_, hphase, hn, ?_⟩
  · exact List.forall_mem_cons.mpr ⟨hs, hreadings⟩
  · simp

theorem prepend {m : Nat} {more : List (Nat × Lexeme)} {ts : List Statement} {phase : Phase}
    {readings : List (Statement × List Portion)} {ps : List Portion}
    (h : ReadOff m (ps.flatMap Portion.placed ++ more) ts phase)
    (hreadings : ∀ x ∈ readings, x.1.ReadFrom x.2) :
    ReadOff m ((readings.flatMap Prod.snd ++ ps).flatMap Portion.placed ++ more)
      (readings.map Prod.fst ++ ts) phase := by
  induction readings with
  | nil => exact h
  | cons x readings ih =>
      obtain ⟨hx, hreadings⟩ := List.forall_mem_cons.mp hreadings
      have hrest := (ih hreadings).cons hx
      simpa using hrest

end ReadOff

theorem Portion.line_le_of_lines {ps : List Portion} {n : Nat} {ls : List Lexeme}
    (h : ((ps ++ [Portion.mk n ls]).map line).Pairwise (· < ·)) :
    ∀ p ∈ ps ++ [Portion.mk n ls], p.line ≤ n := by
  rw [List.map_append, List.pairwise_append] at h
  intro p hp
  rcases List.mem_append.mp hp with hp | hp
  · exact Nat.le_of_lt (h.2.2 _ (List.mem_map_of_mem hp) n (by simp))
  · obtain rfl := List.mem_singleton.mp hp
    exact Nat.le_refl n

/-- The statements of one line, from the content behind its front on. -/
theorem Lexer.readOff_takeContent (r : Reader) (hr : r.macros = .empty) {n : Nat}
    {ps : List Portion} {lead : List Lexeme} (hlead : ∀ l ∈ lead, l.isLiminal = true) (d : Draft)
    (content : List Lexeme) (hd : d.ReadFrom (ps ++ [⟨n, lead⟩]))
    (hcontent : Draft.IsContent content) {phase : Phase}
    (h : (takeContent r d content).result = .ok phase) :
    ReadOff n (ps.flatMap Portion.placed ++ (lead ++ content).map (n, ·))
      (takeContent r d content).statements phase := by
  fun_induction takeContent r d content generalizing ps lead with
  | case1 d content e hresume => cases h
  | case2 d content d' rest joined hresume d'' findings ht =>
      cases h
      have hopen := Draft.readFrom_take hd hlead hcontent hresume
      rw [← hr, ht] at hopen
      have hphase : d''.ReadFrom (ps ++ [⟨n, lead ++ content⟩]) := hopen
      rw [← Portion.placed_concat]
      exact .nil hphase (Portion.line_le_of_lines hphase.lines)
  | case3 d content d' rest joined hresume s findings ht =>
      cases h
      have hclosed := Draft.readFrom_take hd hlead hcontent hresume
      rw [← hr, ht] at hclosed
      obtain ⟨taken, rfl, hs, _⟩ := hclosed
      have hphase : (s.addTail []).ReadFrom (ps ++ [⟨n, lead ++ (taken ++ [])⟩]) := by
        rwa [Statement.addTail_nil, List.append_nil]
      rw [← Portion.placed_concat]
      exact .nil hphase (Portion.line_le_of_lines hphase.lines)
  | case4 d content d' rest joined hresume s l ls findings ht ih =>
      have hclosed := Draft.readFrom_take hd hlead hcontent hresume
      rw [← hr, ht] at hclosed
      obtain ⟨taken, rfl, hs, hback⟩ := hclosed
      have hrest : Draft.IsContent (l :: ls) := by
        refine ⟨List.cons_ne_nil l ls, hback, fun m hm => ?_⟩
        exact hcontent.marks m (List.mem_append_right taken hm)
      have hnone : ∀ m ∈ ([] : List Lexeme), m.isLiminal = true := by simp
      have hstart : (Draft.ofLiminals []).ReadFrom ([] ++ [⟨n, []⟩]) :=
        Draft.readFrom_ofLiminals n
      have hboth := (ih hnone hstart hrest h).cons hs
      rw [Portion.placed_concat] at hboth
      simpa [Taking.prepend] using hboth

namespace Phase

theorem ReadFrom.addLead {phase : Phase} {ps : List Portion} (h : phase.ReadFrom ps) {n : Nat}
    (hn : ∀ p ∈ ps, p.line < n) {lead : List Lexeme} (hlead : ∀ l ∈ lead, l.isLiminal = true) :
    (phase.addLiminals (lead.map Lexeme.text)).ReadFrom (ps ++ [⟨n, lead⟩]) := by
  cases phase with
  | building d => exact Draft.ReadFrom.addLead h hn hlead
  | complete s ahead => exact Statement.ReadFrom.addLead h hn hlead

theorem ReadFrom.lines {phase : Phase} {ps : List Portion} (h : phase.ReadFrom ps) :
    (ps.map Portion.line).Pairwise (· < ·) := by
  cases phase with
  | building d => exact Draft.ReadFrom.lines h
  | complete s ahead => exact Statement.ReadFrom.lines h

theorem readOff_takeParts (r : Reader) (hr : r.macros = .empty) {n : Nat} {phase : Phase}
    {ps : List Portion} (hphase : phase.ReadFrom ps) (hn : ∀ p ∈ ps, p.line < n)
    (row : List Lexeme) (hmarks : ∀ l ∈ row, l.kind = .continuation → l.text = Continuation.mark)
    {phase' : Phase} (h : (phase.takeParts r (.ofLexemes row)).result = .ok phase') :
    ReadOff n (ps.flatMap Portion.placed ++ row.map (n, ·))
      (phase.takeParts r (.ofLexemes row)).statements phase' := by
  have hlead : ∀ l ∈ row.takeWhile (·.isLiminal), l.isLiminal = true :=
    List.all_eq_true.mp List.all_takeWhile
  have hcut := List.takeWhile_append_dropWhile (p := (·.isLiminal)) (l := row)
  have hhead := List.head?_dropWhile_not Lexeme.isLiminal row
  generalize hfront : row.takeWhile (·.isLiminal) = lead at hlead hcut
  generalize hcontent : row.dropWhile (·.isLiminal) = content at hcut hhead
  have hparts : LineParts.ofLexemes row = ⟨lead.map Lexeme.text, content⟩ := by
    rw [LineParts.ofLexemes, hfront, hcontent]
  have hfed := hphase.addLead hn hlead
  rw [hparts] at h ⊢
  unfold takeParts at h ⊢
  dsimp only at h ⊢
  cases content with
  | nil =>
      cases h
      rw [← hcut, List.append_nil, ← Portion.placed_concat]
      exact .nil hfed (Portion.line_le_of_lines hfed.lines)
  | cons l ls =>
      have hready : Draft.IsContent (l :: ls) := by
        refine ⟨List.cons_ne_nil l ls, ?_, ?_⟩
        · intro m hm
          obtain rfl : l = m := Option.some.inj hm
          exact hhead
        · intro m hm
          refine hmarks m ?_
          rw [← hcut]
          exact List.mem_append_right lead hm
      rw [← hcut]
      cases hadded : phase.addLiminals (lead.map Lexeme.text) with
      | building d =>
          rw [hadded] at h hfed
          exact Lexer.readOff_takeContent r hr hlead d (l :: ls) hfed hready h
      | complete s ahead =>
          rw [hadded] at h hfed
          have hnone : ∀ m ∈ ([] : List Lexeme), m.isLiminal = true := by simp
          have hstart : (Draft.ofLiminals []).ReadFrom ([] ++ [⟨n, []⟩]) :=
            Draft.readFrom_ofLiminals n
          have hboth :=
            (Lexer.readOff_takeContent r hr hnone (.ofLiminals []) (l :: ls) hstart hready h).cons
              hfed
          rw [Portion.placed_concat] at hboth
          simpa [Taking.prepend] using hboth

end Phase

/-- Where source is not skipped, a line that is no directive is scanned, and nothing else. -/
theorem Phase.readOff_takeReading (env : Environment) {r : Reader}
    (hr : r.preprocessor = .start .empty) {line : Text} (hline : Line.isDirective line = false)
    {phase : Phase} {ps : List Portion} (hphase : phase.ReadFrom ps)
    (hn : ∀ p ∈ ps, p.line ≤ r.lineNumber) {phase' : Phase}
    (h : (phase.takeReading (r.read env (.ok line))).result = .ok phase') :
    ∃ row scanner, r.scanner.scan line = (.ok row, scanner) ∧
      (r.read env (.ok line)).reader =
        { r with lineNumber := r.lineNumber + 1, scanner := scanner } ∧
      ReadOff (r.lineNumber + 1)
        (ps.flatMap Portion.placed ++ row.map (r.lineNumber + 1, ·))
        (phase.takeReading (r.read env (.ok line))).statements phase' := by
  have hactive : Reader.isSuppressed { r with lineNumber := r.lineNumber + 1 } = false :=
    congrArg Preprocessor.suppressed hr
  have hread : r.read env (.ok line) = _ := Reader.readText_of_scan env hactive hline
  dsimp only at hread
  cases hscan : r.scanner.scan line with
  | mk result scanner =>
      rw [hscan] at hread
      cases result with
      | error e => simp [hread, takeReading] at h
      | ok row =>
          have hmarks : ∀ l ∈ row, l.kind = .continuation → l.text = Continuation.mark :=
            fun l hl => Scanner.text_of_mem_scan hscan hl
          have hbehind : ∀ p ∈ ps, p.line < r.lineNumber + 1 :=
            fun p hp => Nat.lt_succ_of_le (hn p hp)
          have hmacros : Reader.macros
              { r with lineNumber := r.lineNumber + 1, scanner := scanner } = .empty :=
            congrArg Preprocessor.macros hr
          dsimp only at hread
          rw [hread] at h ⊢
          exact ⟨row, scanner, rfl, rfl, readOff_takeParts _ hmacros hphase hbehind row hmarks h⟩

/-- The lexemes of some lines, which are counted from `n` on. -/
def placeRows (n : Nat) : List (List Lexeme) → List (Nat × Lexeme)
  | [] => []
  | row :: rows => row.map (n, ·) ++ placeRows (n + 1) rows

theorem readOff_assemble (env : Environment) {lines : List Text}
    (hlines : ∀ line ∈ lines, Line.isDirective line = false) (r : Reader)
    (hr : r.preprocessor = .start .empty) {phase : Phase} {ps : List Portion}
    (hphase : phase.ReadFrom ps) (hn : ∀ p ∈ ps, p.line ≤ r.lineNumber) {phase' : Phase}
    (h : (assemble env (lines.map .ok) r phase).result = .ok phase') :
    ∃ rows, r.scanner.scanAll lines = .ok rows ∧
      ReadOff (r.lineNumber + lines.length)
        (ps.flatMap Portion.placed ++ placeRows (r.lineNumber + 1) rows)
        (assemble env (lines.map .ok) r phase).statements phase' := by
  induction lines generalizing r phase ps with
  | nil =>
      cases h
      refine ⟨[], rfl, ?_⟩
      rw [placeRows, List.append_nil]
      exact .nil hphase hn
  | cons line lines ih =>
      obtain ⟨hline, hlines⟩ := List.forall_mem_cons.mp hlines
      simp only [List.map_cons, assemble, Taking.followedBy] at h ⊢
      cases htaken : (phase.takeReading (r.read env (.ok line))).result with
      | error e => simp [htaken] at h
      | ok phase₁ =>
          obtain ⟨row, scanner, hscan, hreader, hrow⟩ :=
            Phase.readOff_takeReading env hr hline hphase hn htaken
          obtain ⟨readings, qs, hstatements, hreadings, hqs, hqn, hplaced⟩ := hrow
          rw [htaken, hreader] at h
          obtain ⟨rows, hrows, hbehind⟩ :=
            ih hlines { r with lineNumber := r.lineNumber + 1, scanner := scanner } hr hqs hqn h
          have hboth := hbehind.prepend hreadings
          rw [hstatements, hplaced, List.append_assoc] at hboth
          refine ⟨row :: rows, ?_, ?_⟩
          · rw [Scanner.scanAll, hscan]
            dsimp only at hrows ⊢
            rw [hrows]
            rfl
          · rw [hreader]
            have hlast : r.lineNumber + 1 + lines.length = r.lineNumber + (lines.length + 1) := by
              omega
            rw [hlast] at hboth
            exact hboth

/-- What is left over at the end of a source starts no statement. -/
theorem Phase.ReadFrom.last {phase : Phase} {ps : List Portion} (h : phase.ReadFrom ps) :
    ∃ (readings : List (Statement × List Portion)) (rest : List Portion),
      readings.map Prod.fst = phase.last ∧ (∀ x ∈ readings, x.1.ReadFrom x.2) ∧
        readings.flatMap Prod.snd ++ rest = ps ∧ Portion.text rest = phase.trailing.flatten := by
  cases phase with
  | building d =>
      have hd : d.ReadFrom ps := h
      cases hs : d.statement? with
      | none =>
          have hnil := Draft.statement?_eq_none_iff_tokens.mp hs
          refine ⟨[], ps, by simp [Phase.last, hs], by simp, rfl, ?_⟩
          rw [← hd.source]
          simp [Phase.trailing, hs, Draft.source, hnil]
      | some s =>
          refine ⟨[(s, ps)], [], by simp [Phase.last, hs], ?_, by simp, ?_⟩
          · intro x hx
            obtain rfl := List.mem_singleton.mp hx
            exact hd.statement hs
          · simp [Phase.trailing, hs, Portion.text]
  | complete s ahead =>
      refine ⟨[(s.addTail ahead, ps)], [], rfl, ?_, by simp, rfl⟩
      intro x hx
      obtain rfl := List.mem_singleton.mp hx
      exact h

namespace Lexer

/-- Where no macro and no directive is about, the statements are read one after another from the
scanned lines. The tokens of each are made of its live lexemes, and between two of these no live
lexeme is a separator. -/
theorem statements_readFrom (env : Environment) (t : Text) (name : Option Path)
    (hplain : ∀ line ∈ t.lines, Line.isDirective line = false) {d : Document}
    (h : ((start (.ofText t) .empty name).run env).result = .ok d) :
    ∃ rows, scanText t = .ok rows ∧
      ∃ (readings : List (Statement × List Portion)) (rest : List Portion),
        readings.map Prod.fst = d.statements ∧ (∀ x ∈ readings, x.1.ReadFrom x.2) ∧
          (readings.flatMap Prod.snd ++ rest).flatMap Portion.placed = placeRows 1 rows ∧
          Portion.text rest = d.trailing.flatten := by
  obtain ⟨phase, hresult, rfl⟩ := exists_of_run h
  have hstart : (Phase.building (.ofLiminals [])).ReadFrom [] := by
    refine ⟨by simp, rfl, Draft.fresh_ofLiminals [], ?_, by simp [Portion.live], ?_⟩
    · exact unbroken_of_plain (by simp [Portion.live])
    · exact Token.madeOf_nil (by simp [Portion.live])
  obtain ⟨rows, hrows, readings, ps, hstatements, hreadings, hphase, _, hplaced⟩ :=
    readOff_assemble env hplain (.start name .empty) rfl hstart (by simp) hresult
  obtain ⟨more, rest, hlast, hmore, rfl, hrest⟩ := hphase.last
  refine ⟨rows, hrows, readings ++ more, rest, ?_, ?_, ?_, hrest⟩
  · rw [List.map_append, hstatements, hlast]
    rfl
  · intro x hx
    rcases List.mem_append.mp hx with hx | hx
    · exact hreadings x hx
    · exact hmore x hx
  · have hrows : placeRows ((Reader.start name .empty).lineNumber + 1) rows = placeRows 1 rows := rfl
    rw [hrows] at hplaced
    simpa using hplaced

theorem statements_readFrom_of_swallowed :
    ∃ d, ((start (.ofText "a = &\n ; b; c & ; d\n; e\n".toList) .empty none).run
        ⟨.none, [], 0, none⟩).result = .ok d ∧
      d.values = [["a".toList, "=".toList, "b".toList], ["c".toList, "e".toList]] ∧
      ∃ rows, scanText "a = &\n ; b; c & ; d\n; e\n".toList = .ok rows ∧
        ∃ (readings : List (Statement × List Portion)) (rest : List Portion),
          readings.map Prod.fst = d.statements ∧ (∀ x ∈ readings, x.1.ReadFrom x.2) ∧
            (readings.flatMap Prod.snd ++ rest).flatMap Portion.placed = placeRows 1 rows ∧
            Portion.text rest = d.trailing.flatten := by
  have hvalues : ((start (.ofText "a = &\n ; b; c & ; d\n; e\n".toList) .empty none).run
      ⟨.none, [], 0, none⟩).result.toOption.map Document.values =
        some [["a".toList, "=".toList, "b".toList], ["c".toList, "e".toList]] := by
    decide +kernel
  obtain ⟨d, hresult, hd⟩ := exists_of_map_toOption hvalues
  exact ⟨d, hresult, hd, statements_readFrom _ _ _ (by decide) hresult⟩

/-- At the front of a line a separator ends nothing, not even between two tokens. -/
theorem run_of_leading_separator :
    ((start (.ofText "a &\n; b\n".toList) .empty none).run ⟨.none, [], 0, none⟩).result.toOption.map
        Document.values = some [["a".toList, "b".toList]] ∧
    (scanText "a &\n; b\n".toList).toOption = some
      [[⟨.name, "a".toList⟩, ⟨.whitespace, " ".toList⟩, ⟨.continuation, "&".toList⟩,
          ⟨.lineEnd, "\n".toList⟩],
        [⟨.separator, ";".toList⟩, ⟨.whitespace, " ".toList⟩, ⟨.name, "b".toList⟩,
          ⟨.lineEnd, "\n".toList⟩]] := by
  constructor <;> decide +kernel

end Lexer

end FreeForm
