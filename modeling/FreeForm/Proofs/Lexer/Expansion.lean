import FreeForm.Proofs.Draft.Expansion
import FreeForm.Proofs.Lexer.Assembly
import FreeForm.Proofs.Reader.Inclusions
import FreeForm.Proofs.Reader.Survey

namespace FreeForm

/-!
# Macros are expanded under the table of their line

The lexer carries out directives while it looks ahead and while it is inside a statement, and it may
still hold lexemes of a line when it does. Nevertheless the tokens of a run are those of two passes:
a survey of the lines, which says what table is in force in front of each, and the deeds of the run,
which expand the lexemes of each line under that table. The invocations reported are those of the
deeds.
-/

/-- The deeds of `takeContent`. -/
def Lexer.contentDeeds (r : Reader) (d : Draft) (content : List Lexeme) : List Deed :=
  match _hr : d.resume content with
  | .error _ => []
  | .ok (d', rest, _) =>
      d.resumeDeeds content ++ d'.takeDeeds r.lineNumber r.macros rest ++
        match _ht : d'.take r.macros rest with
        | (.closed _ (l :: ls), _) => contentDeeds r (.ofLiminals []) (l :: ls)
        | _ => []
termination_by content.length
decreasing_by
  exact Nat.lt_of_lt_of_le (Draft.length_lt_of_take _ht (List.cons_ne_nil _ _))
    (Draft.length_le_of_resume _hr)

namespace Phase

/-- The deeds of `takeParts`. -/
def partsDeeds (r : Reader) (phase : Phase) (parts : LineParts) : List Deed :=
  match parts.content, phase.addLiminals parts.lead with
  | [], _ => []
  | l :: ls, .building d => Lexer.contentDeeds r d (l :: ls)
  | l :: ls, .complete _ _ => Lexer.contentDeeds r (.ofLiminals []) (l :: ls)

def readingDeeds (phase : Phase) (reading : Reading LineParts) : List Deed :=
  match reading.result with
  | .error _ => []
  | .ok parts => phase.partsDeeds reading.reader parts

/-- At the end of the source a statement in the making is complete. -/
def lastDeeds : Phase → List Deed
  | .building d =>
      match d.statement? with
      | none => []
      | some _ => [.ended]
  | .complete _ _ => []

end Phase

/-- The deeds of `assemble`, line by line, and those at the end of the source. -/
def assembleDeeds (env : Environment) : Source → Reader → Phase → List (List Deed)
  | [], _, phase => [phase.lastDeeds]
  | line :: lines, r, phase =>
      phase.readingDeeds (r.read env line) ::
        match (phase.takeReading (r.read env line)).result with
        | .error _ => []
        | .ok phase => assembleDeeds env lines (r.read env line).reader phase

namespace Deed

def isJoined : Deed → Bool
  | joined .. => true
  | pushed .. | leftOut _ | ended => false

def isLeftOut : Deed → Bool
  | leftOut _ => true
  | pushed .. | joined .. | ended => false

/-- What the deeds of a line leave out is what stands behind a continuation mark, but not behind one
that the line starts with. -/
def LeaveOut (lexemes : List Lexeme) (deeds : List Deed) : Prop :=
  ∃ (taken : List Deed) (cut : List Lexeme), deeds = taken ++ cut.map leftOut ∧
    (∀ deed ∈ taken, deed.isLeftOut = false) ∧
    (cut = [] ∨ ∃ front mark back, lexemes = front ++ mark :: back ∧
      mark.isContinuation = true ∧ (∃ l ∈ front, l.isLiminal = false) ∧
      cut = back.filter (·.isSemantic))

/-- The deeds of a line deal with its semantic lexemes, each once and in order. What they push is
expanded under the macro table of the line, and only the first can complete a token. -/
structure OfLine (line : Nat) (macros : MacroTable) (lexemes : List Lexeme) (deeds : List Deed) :
    Prop where
  all : deeds.filterMap lexeme? = lexemes.filter (·.isSemantic)
  table : ∀ n table l, pushed n table l ∈ deeds → n = line ∧ table = macros
  joins : ∀ deed ∈ deeds.tail, deed.isJoined = false
  leave : LeaveOut lexemes deeds

/-- The deeds of a run account for the lines of a survey, which are counted on from `n`. At the end
of the source a statement may be complete. -/
inductive Account : Nat → List (MacroTable × List Lexeme) → List (List Deed) → Prop
  | nil (n : Nat) {last : List Deed} (h : last = [] ∨ last = [.ended]) : Account n [] [last]
  | line {n : Nat} {macros : MacroTable} {lexemes : List Lexeme} {deeds : List Deed}
      {more : List (List Deed)} {rows : List (MacroTable × List Lexeme)}
      (first : OfLine (n + 1) macros lexemes deeds) (rest : Account (n + 1) rows more) :
      Account n ((macros, lexemes) :: rows) (deeds :: more)

variable {line : Nat} {macros : MacroTable} {lexemes front : List Lexeme}
  {deeds before : List Deed}

theorem leaveOut_of_taken (lexemes : List Lexeme) (h : ∀ deed ∈ deeds, deed.isLeftOut = false) :
    LeaveOut lexemes deeds :=
  ⟨deeds, [], (List.append_nil deeds).symm, h, .inl rfl⟩

theorem LeaveOut.prepend (h : LeaveOut lexemes deeds) (front : List Lexeme)
    (hbefore : ∀ deed ∈ before, deed.isLeftOut = false) :
    LeaveOut (front ++ lexemes) (before ++ deeds) := by
  obtain ⟨taken, cut, rfl, htaken, hcut⟩ := h
  refine ⟨before ++ taken, cut, by rw [List.append_assoc], ?_, ?_⟩
  · exact List.forall_mem_append.mpr ⟨hbefore, htaken⟩
  · rcases hcut with hcut | ⟨front', mark, back, rfl, hmark, ⟨l, hl, hliminal⟩, hcut⟩
    · exact .inl hcut
    · refine .inr ⟨front ++ front', mark, back, by rw [List.append_assoc], hmark, ?_, hcut⟩
      exact ⟨l, List.mem_append_right front hl, hliminal⟩

/-- The lexemes behind those taken, when none of these joins a token, are dealt with in turn. -/
theorem OfLine.append (h : OfLine line macros front before)
    (hbefore : ∀ deed ∈ before, deed.isLeftOut = false) (hmore : OfLine line macros lexemes deeds)
    (hjoins : ∀ deed ∈ deeds, deed.isJoined = false) :
    OfLine line macros (front ++ lexemes) (before ++ deeds) := by
  refine ⟨?_, ?_, ?_, hmore.leave.prepend front hbefore⟩
  · rw [List.filterMap_append, List.filter_append, h.all, hmore.all]
  · intro n table l hl
    rcases List.mem_append.mp hl with hl | hl
    · exact h.table n table l hl
    · exact hmore.table n table l hl
  · cases before with
    | nil => exact hmore.joins
    | cons deed before => exact List.forall_mem_append.mpr ⟨h.joins, hjoins⟩

theorem ofLine_nil (line : Nat) (macros : MacroTable) : OfLine line macros [] [] :=
  ⟨rfl, fun _ _ _ h => (List.not_mem_nil h).elim, List.forall_mem_nil _,
    leaveOut_of_taken [] (List.forall_mem_nil _)⟩

/-- Deeds that deal with no lexeme are done under any table. -/
theorem OfLine.of_nil {macros' : MacroTable} (h : OfLine line macros [] deeds) :
    OfLine line macros' [] deeds := by
  refine ⟨h.all, fun n table l hl => ?_, h.joins, h.leave⟩
  have hmem : l ∈ deeds.filterMap lexeme? := List.mem_filterMap.mpr ⟨_, hl, rfl⟩
  rw [h.all] at hmem
  cases hmem

theorem OfLine.of_dropWhile
    (h : OfLine line macros (lexemes.dropWhile (·.isLiminal)) deeds) :
    OfLine line macros lexemes deeds := by
  have hcut := List.takeWhile_append_dropWhile (p := (·.isLiminal)) (l := lexemes)
  have hplain : (lexemes.takeWhile (·.isLiminal)).filter (·.isSemantic) = [] := by
    refine List.filter_eq_nil_iff.mpr fun m hm => ?_
    have hliminal := List.all_eq_true.mp List.all_takeWhile m hm
    simp [Lexeme.isSemantic_eq, hliminal]
  have hleave := h.leave.prepend (lexemes.takeWhile (·.isLiminal)) (List.forall_mem_nil _)
  rw [hcut] at hleave
  refine ⟨?_, h.table, h.joins, hleave⟩
  rw [h.all, ← hcut, List.filter_append, hplain, List.nil_append]
  rw [hcut]

theorem expansions_pushed (r : Reader) (ls : List Lexeme) :
    Event.expansions ((ls.flatMap (Draft.expansionOf r.macros)).map r.diagnosed) =
      (ls.map (pushed r.lineNumber r.macros)).filterMap (diagnostic? r.source) := by
  induction ls with
  | nil => rfl
  | cons l ls ih =>
      rw [List.flatMap_cons, List.map_append, Event.expansions_append, ih, List.map_cons,
        List.filterMap_cons]
      cases hget : r.macros.get? l.text with
      | none => simp [Draft.expansionOf, diagnostic?, hget, Event.expansions, Event.diagnostics]
      | some body =>
          simp [Draft.expansionOf, diagnostic?, hget, Event.expansions, Event.diagnostics,
            Event.diagnostic?, Reader.diagnosed, Finding.isExpansion]

end Deed

namespace Draft

variable {d d' : Draft} {content rest front taken back : List Lexeme}

theorem ofLine_pushed (line : Nat) (macros : MacroTable) (ls : List Lexeme) :
    Deed.OfLine line macros ls ((ls.filter (·.isSemantic)).map (.pushed line macros)) := by
  refine ⟨?_, ?_, ?_, Deed.leaveOut_of_taken ls ?_⟩
  · rw [List.filterMap_map]
    exact List.filterMap_some
  · intro n table l hl
    obtain ⟨m, _, hm⟩ := List.mem_map.mp hl
    cases hm
    exact ⟨rfl, rfl⟩
  · intro deed hdeed
    obtain ⟨m, _, rfl⟩ := List.mem_map.mp (List.mem_of_mem_tail hdeed)
    rfl
  · intro deed hdeed
    obtain ⟨m, _, rfl⟩ := List.mem_map.mp hdeed
    rfl

theorem Resumes.ofLine (h : Resumes d content d' rest front) (line : Nat) (macros : MacroTable) :
    Deed.OfLine line macros front (d.resumeDeeds content) ∧
      ∀ deed ∈ d.resumeDeeds content, deed.isLeftOut = false := by
  rcases h with ⟨_, _, hall, hdeeds | ⟨liminals, marked, fragment, hdeeds⟩, _⟩
  · rw [hdeeds] at hall ⊢
    exact ⟨⟨hall, by simp, by simp, Deed.leaveOut_of_taken front (by simp)⟩, by simp⟩
  · rw [hdeeds] at hall ⊢
    exact ⟨⟨hall, by simp, by simp, Deed.leaveOut_of_taken front (by simp [Deed.isLeftOut])⟩,
      by simp [Deed.isLeftOut]⟩

/-- The deeds of a line up to the point that `take` stops at. -/
theorem ofLine_taken (hr : Resumes d content d' rest front) (line : Nat) (macros : MacroTable)
    (taken : List Lexeme) :
    Deed.OfLine line macros (front ++ taken) (d.resumeDeeds content ++
        (taken.filter (·.isSemantic)).map (.pushed line macros)) ∧
      ∀ deed ∈ d.resumeDeeds content ++ (taken.filter (·.isSemantic)).map (.pushed line macros),
        deed.isLeftOut = false := by
  obtain ⟨hfront, hleft⟩ := hr.ofLine line macros
  have hpushed : ∀ deed ∈ (taken.filter (·.isSemantic)).map (Deed.pushed line macros),
      deed.isJoined = false ∧ deed.isLeftOut = false := by
    intro deed hdeed
    obtain ⟨m, _, rfl⟩ := List.mem_map.mp hdeed
    exact ⟨rfl, rfl⟩
  refine ⟨hfront.append hleft (ofLine_pushed line macros taken) fun deed hdeed =>
    (hpushed deed hdeed).1, ?_⟩
  exact List.forall_mem_append.mpr ⟨hleft, fun deed hdeed => (hpushed deed hdeed).2⟩

/-- The deeds of a line whose last statement stays open: what stands behind a mark is left out. -/
theorem ofLine_open (hr : Resumes d content d' (taken ++ back) front)
    (hback : ∀ l ∈ back.head?, l.isContinuation = true)
    (hhead : ∀ l ∈ content.head?, l.isLiminal = false) (line : Nat) (macros : MacroTable) :
    Deed.OfLine line macros content
      (d.resumeDeeds content ++ ((taken.filter (·.isSemantic)).map (.pushed line macros) ++
        (back.filter (·.isSemantic)).map .leftOut)) := by
  obtain ⟨⟨hall, htable, hjoins, _⟩, hleft⟩ := ofLine_taken hr line macros taken
  have hcut : content = front ++ taken ++ back := by rw [hr.cut, List.append_assoc]
  rw [← List.append_assoc]
  generalize d.resumeDeeds content ++ (taken.filter (·.isSemantic)).map (Deed.pushed line macros) =
    before at hall htable hjoins hleft ⊢
  refine ⟨?_, ?_, ?_, before, back.filter (·.isSemantic), rfl, hleft, ?_⟩
  · rw [hcut, List.filterMap_append, hall, List.filterMap_map, List.filter_append (front ++ taken)]
    exact congrArg _ List.filterMap_some
  · intro n table l hl
    refine htable n table l ((List.mem_append.mp hl).resolve_right fun hl => ?_)
    obtain ⟨m, _, hm⟩ := List.mem_map.mp hl
    cases hm
  · intro deed hdeed
    rw [List.tail_append] at hdeed
    split at hdeed
    · obtain ⟨m, _, rfl⟩ := List.mem_map.mp (List.mem_of_mem_tail hdeed)
      rfl
    · rcases List.mem_append.mp hdeed with hdeed | hdeed
      · exact hjoins deed hdeed
      · obtain ⟨m, _, rfl⟩ := List.mem_map.mp hdeed
        rfl
  · cases hbackEq : back with
    | nil => exact .inl rfl
    | cons mark behind =>
        have hmark : mark.isContinuation = true := hback mark (by rw [hbackEq]; rfl)
        rw [hbackEq] at hcut
        refine .inr ⟨front ++ taken, mark, behind, hcut, hmark, ?_, ?_⟩
        · -- a mark at the front of the content would have been taken with the front
          cases hfront : front ++ taken with
          | nil =>
              obtain ⟨hnil, htaken⟩ := List.append_eq_nil_iff.mp hfront
              have hunmarked := hr.unmarked hnil mark (by rw [htaken, hbackEq]; rfl)
              rw [hmark] at hunmarked
              cases hunmarked
          | cons l ls => exact ⟨l, List.mem_cons_self, hhead l (by rw [hcut, hfront]; rfl)⟩
        · rw [List.filter_cons_of_neg (by simp [Lexeme.isSemantic_eq, hmark])]

/-- The deeds of lexemes that complete a statement. -/
theorem ofLine_closed (hr : Resumes d content d' rest front) (line : Nat) (macros : MacroTable)
    (taken : List Lexeme) :
    Deed.OfLine line macros (front ++ taken) (d.resumeDeeds content ++
        ((taken.filter (·.isSemantic)).map (.pushed line macros) ++ [.ended])) ∧
      ∀ deed ∈ d.resumeDeeds content ++
        ((taken.filter (·.isSemantic)).map (.pushed line macros) ++ [.ended]),
        deed.isLeftOut = false := by
  obtain ⟨htaken, hleft⟩ := ofLine_taken hr line macros taken
  have hended : Deed.OfLine line macros [] [.ended] :=
    ⟨rfl, by simp, by simp, Deed.leaveOut_of_taken [] (by simp [Deed.isLeftOut])⟩
  have hboth := htaken.append hleft hended (by simp [Deed.isJoined])
  rw [List.append_nil, List.append_assoc] at hboth
  refine ⟨hboth, ?_⟩
  rw [← List.append_assoc]
  exact List.forall_mem_append.mpr ⟨hleft, by simp [Deed.isLeftOut]⟩

theorem isJoined_takeDeeds (line : Nat) (macros : MacroTable) (d : Draft) (ls : List Lexeme) :
    ∀ deed ∈ takeDeeds line macros ls d, deed.isJoined = false := by
  obtain ⟨front, back, h⟩ := take_cases macros ls d
  rw [h.deeds]
  refine List.forall_mem_append.mpr ⟨?_, ?_⟩
  · intro deed hdeed
    obtain ⟨m, _, rfl⟩ := List.mem_map.mp hdeed
    rfl
  · cases (take macros ls d).1 with
    | «open» d' =>
        intro deed hdeed
        obtain ⟨m, _, rfl⟩ := List.mem_map.mp hdeed
        rfl
    | closed s rest => simp [Progress.lastDeeds, Deed.isJoined]

end Draft

/-- The bare tokens at the end of some lines. -/
def Phase.tally (done : List (List Token)) : Phase → Tally
  | .building d => ⟨done, d.bare⟩
  | .complete s _ => ⟨done ++ [s.bare], []⟩

/-- Deeds lead from the tokens in front of a line, behind some statements, to those of its own
statements and of the one at its end, and their invocations are what is reported. -/
structure Taking.DoneBy (t : Taking) (source : Option Path) (deeds : List Deed)
    (done : List (List Token)) (before : Tally) (phase : Phase) : Prop where
  perform : deeds.foldlM Deed.perform before =
    some (phase.tally (done ++ t.statements.map Statement.bare))
  report : Event.expansions t.events = deeds.filterMap (Deed.diagnostic? source)

/-- What starts a statement goes on behind what completed some. -/
theorem Taking.DoneBy.prepend {t : Taking} {source : Option Path} {deeds more : List Deed}
    {done : List (List Token)} {ss : List Statement} {before between : Tally} {phase : Phase}
    (h : t.DoneBy source more (done ++ ss.map Statement.bare) between phase) {es : List Event}
    (hperform : deeds.foldlM Deed.perform before = some between)
    (hreport : Event.expansions es = deeds.filterMap (Deed.diagnostic? source)) :
    (t.prepend ss es).DoneBy source (deeds ++ more) done before phase := by
  constructor
  · rw [List.foldlM_append, hperform, Option.bind_eq_bind, Option.bind_some, h.perform,
      List.append_assoc, ← List.map_append]
    rfl
  · rw [List.filterMap_append, ← hreport, ← h.report, ← Event.expansions_append]
    rfl

/-- What the deeds of one statement's part of a line lead to. -/
theorem Draft.done_of_take (r : Reader) {d d' : Draft} {content rest : List Lexeme}
    {joined : List Event} (hr : d.resume content = .ok (d', rest, joined)) {progress : Progress}
    {findings : List Finding} (ht : d'.take r.macros rest = (progress, findings))
    (done : List (List Token)) :
    (d.resumeDeeds content ++ d'.takeDeeds r.lineNumber r.macros rest).foldlM Deed.perform
        ⟨done, d.bare⟩ = some (progress.tally done) ∧
      Event.expansions (joined ++ findings.map r.diagnosed) =
        (d.resumeDeeds content ++ d'.takeDeeds r.lineNumber r.macros rest).filterMap
          (Deed.diagnostic? r.source) := by
  obtain ⟨hsilent, front, hresumes⟩ := exists_resumes hr
  obtain ⟨taken, back, htakes⟩ := take_cases r.macros rest d'
  have hperform := htakes.perform r.lineNumber done
  have hfindings := htakes.findings
  rw [ht] at hperform hfindings
  constructor
  · rw [List.foldlM_append, hresumes.perform, Option.bind_eq_bind, Option.bind_some, hperform]
  · have hjoined : (d.resumeDeeds content).filterMap (Deed.diagnostic? r.source) = [] := by
      rcases hresumes.deeds with hdeeds | ⟨liminals, marked, fragment, hdeeds⟩ <;>
        rw [hdeeds] <;> rfl
    have hlast : ((take r.macros rest d').1.lastDeeds back).filterMap
        (Deed.diagnostic? r.source) = [] := by
      cases (take r.macros rest d').1 with
      | «open» d'' =>
          refine List.filterMap_eq_nil_iff.mpr fun deed hdeed => ?_
          obtain ⟨m, _, rfl⟩ := List.mem_map.mp hdeed
          rfl
      | closed s rest => rfl
    dsimp only at hfindings
    rw [List.filterMap_append, hjoined, List.nil_append, htakes.deeds, List.filterMap_append,
      hlast, List.append_nil, ← Deed.expansions_pushed, ← hfindings, Event.expansions_append]
    simp [Event.expansions, hsilent]

namespace Lexer

theorem contentDeeds_eq (r : Reader) {d d' : Draft} {content rest : List Lexeme}
    {joined : List Event} (hr : d.resume content = .ok (d', rest, joined)) :
    contentDeeds r d content =
      d.resumeDeeds content ++ d'.takeDeeds r.lineNumber r.macros rest ++
        match d'.take r.macros rest with
        | (.closed _ (l :: ls), _) => contentDeeds r (.ofLiminals []) (l :: ls)
        | _ => [] := by
  rw [contentDeeds]
  split
  · rename_i e he
    rw [hr] at he
    cases he
  · rename_i d₁ rest₁ joined₁ h₁
    rw [hr] at h₁
    cases h₁
    congr 1
    split <;> simp [*]

/-- Where there is no token yet, nothing is joined. -/
theorem isJoined_contentDeeds (r : Reader) {d : Draft} (hd : d.tokens = [])
    (content : List Lexeme) : ∀ deed ∈ contentDeeds r d content, deed.isJoined = false := by
  have hresume : ∀ content, d.resumeDeeds content = [] := by
    intro content
    simp [Draft.resumeDeeds, hd]
  fun_induction takeContent r d content with
  | case1 d content e hr => simp [Draft.resume, hd] at hr
  | case2 d content d' rest joined hr d'' findings ht =>
      rw [contentDeeds_eq r hr, ht, hresume, List.nil_append, List.append_nil]
      exact Draft.isJoined_takeDeeds _ _ _ _
  | case3 d content d' rest joined hr s findings ht =>
      rw [contentDeeds_eq r hr, ht, hresume, List.nil_append, List.append_nil]
      exact Draft.isJoined_takeDeeds _ _ _ _
  | case4 d content d' rest joined hr s l ls findings ht ih =>
      rw [contentDeeds_eq r hr, ht, hresume, List.nil_append]
      exact List.forall_mem_append.mpr ⟨Draft.isJoined_takeDeeds _ _ _ _,
        ih rfl fun content => rfl⟩

/-- The deeds of the content of a line deal with all of it. -/
theorem ofLine_contentDeeds (r : Reader) (d : Draft) (content : List Lexeme)
    (hhead : ∀ l ∈ content.head?, l.isLiminal = false) {phase : Phase}
    (h : (takeContent r d content).result = .ok phase) :
    Deed.OfLine r.lineNumber r.macros content (contentDeeds r d content) := by
  fun_induction takeContent r d content with
  | case1 d content e hr => cases h
  | case2 d content d' rest joined hr d'' findings ht =>
      obtain ⟨_, front, hresumes⟩ := Draft.exists_resumes hr
      obtain ⟨taken, back, rfl, hback, _, _, hdeeds, _⟩ := Draft.take_cases r.macros rest d'
      rw [ht] at hback hdeeds
      rw [contentDeeds_eq r hr, ht, hdeeds, List.append_nil]
      exact Draft.ofLine_open hresumes hback hhead _ _
  | case3 d content d' rest joined hr s findings ht =>
      obtain ⟨_, front, hresumes⟩ := Draft.exists_resumes hr
      obtain ⟨taken, back, rfl, hback, _, _, hdeeds, _⟩ := Draft.take_cases r.macros rest d'
      rw [ht] at hback hdeeds
      obtain rfl : back = [] := hback
      have hcut := hresumes.cut
      obtain ⟨hclosed, _⟩ := Draft.ofLine_closed hresumes r.lineNumber r.macros taken
      rw [List.append_nil] at hcut
      rw [← hcut] at hclosed
      rw [contentDeeds_eq r hr, ht, hdeeds, List.append_nil]
      exact hclosed
  | case4 d content d' rest joined hr s l ls findings ht ih =>
      obtain ⟨_, front, hresumes⟩ := Draft.exists_resumes hr
      obtain ⟨taken, back, rfl, hback, _, _, hdeeds, hnext⟩ := Draft.take_cases r.macros rest d'
      rw [ht] at hback hdeeds hnext
      obtain rfl : back = l :: ls := hback
      obtain ⟨hclosed, hleft⟩ := Draft.ofLine_closed hresumes r.lineNumber r.macros taken
      have hrest : ∀ m ∈ (l :: ls).head?, m.isLiminal = false := by
        intro m hm
        have hsemantic := hnext s (l :: ls) rfl m hm
        simp only [Lexeme.isSemantic_eq, Bool.not_eq_true', Bool.or_eq_false_iff] at hsemantic
        exact hsemantic.1
      have hcut : content = front ++ taken ++ l :: ls := by rw [hresumes.cut, List.append_assoc]
      have hboth := hclosed.append hleft (ih hrest h) (isJoined_contentDeeds r rfl (l :: ls))
      rw [← hcut] at hboth
      rw [contentDeeds_eq r hr, ht, hdeeds]
      exact hboth

/-- The deeds of the content of a line lead from the tokens of the draft to those of the statements
and of what is left open. -/
theorem done_contentDeeds (r : Reader) (d : Draft) (content : List Lexeme)
    (done : List (List Token)) {phase : Phase} (h : (takeContent r d content).result = .ok phase) :
    (takeContent r d content).DoneBy r.source (contentDeeds r d content) done ⟨done, d.bare⟩
      phase := by
  fun_induction takeContent r d content generalizing done with
  | case1 d content e hr => cases h
  | case2 d content d' rest joined hr d'' findings ht =>
      cases h
      obtain ⟨hperform, hreport⟩ := Draft.done_of_take r hr ht done
      rw [contentDeeds_eq r hr, ht, List.append_nil]
      refine ⟨?_, hreport⟩
      rw [hperform, List.map_nil, List.append_nil]
      rfl
  | case3 d content d' rest joined hr s findings ht =>
      cases h
      obtain ⟨hperform, hreport⟩ := Draft.done_of_take r hr ht done
      rw [contentDeeds_eq r hr, ht, List.append_nil]
      refine ⟨?_, hreport⟩
      rw [hperform, List.map_nil, List.append_nil]
      rfl
  | case4 d content d' rest joined hr s l ls findings ht ih =>
      obtain ⟨hperform, hreport⟩ := Draft.done_of_take r hr ht done
      rw [contentDeeds_eq r hr, ht]
      exact Taking.DoneBy.prepend (ih (done ++ [s.bare]) h) hperform hreport

end Lexer

namespace Phase

@[simp] theorem tally_addLiminals (done : List (List Token)) (phase : Phase)
    (liminals : List Text) : (phase.addLiminals liminals).tally done = phase.tally done := by
  cases phase <;> rfl

theorem lastDeeds_cases (phase : Phase) : phase.lastDeeds = [] ∨ phase.lastDeeds = [.ended] := by
  cases phase with
  | building d => cases hs : d.statement? <;> simp [lastDeeds, hs]
  | complete s ahead => exact .inl rfl

/-- The end of a source completes the statement in the making. -/
theorem perform_lastDeeds (phase : Phase) (done : List (List Token)) :
    phase.lastDeeds.foldlM Deed.perform (phase.tally done) =
      some ⟨done ++ phase.last.map Statement.bare, []⟩ := by
  cases phase with
  | building d =>
      cases hs : d.statement? with
      | none => simp [last, lastDeeds, tally, hs, Draft.statement?_eq_none.mp hs]
      | some s => simp [last, lastDeeds, tally, hs, Deed.perform, Draft.bare_of_statement? hs]
  | complete s ahead => simp [last, lastDeeds, tally]

theorem done_partsDeeds (r : Reader) (phase : Phase) (parts : LineParts)
    (done : List (List Token)) {phase' : Phase}
    (h : (phase.takeParts r parts).result = .ok phase') :
    (phase.takeParts r parts).DoneBy r.source (phase.partsDeeds r parts) done (phase.tally done)
      phase' := by
  have hphase := tally_addLiminals done phase parts.lead
  unfold takeParts at h ⊢
  unfold partsDeeds
  rw [← hphase]
  cases hcontent : parts.content with
  | nil =>
      rw [hcontent] at h
      cases h
      exact ⟨by simp, rfl⟩
  | cons l ls =>
      rw [hcontent] at h
      cases hlead : phase.addLiminals parts.lead with
      | building d =>
          rw [hlead] at h
          exact Lexer.done_contentDeeds r d (l :: ls) done h
      | complete s ahead =>
          rw [hlead] at h
          have hrest := Lexer.done_contentDeeds r (.ofLiminals []) (l :: ls) (done ++ [s.bare]) h
          have hs : [s.bare] = [s.addTail ahead].map Statement.bare := by simp
          have hstart : ([] : List Deed).foldlM Deed.perform (tally done (complete s ahead)) =
              some ⟨done ++ [s.bare], []⟩ := rfl
          rw [hs] at hrest hstart
          exact hrest.prepend hstart rfl

theorem ofLine_partsDeeds (r : Reader) (phase : Phase) {parts : LineParts} {ls : List Lexeme}
    (hcontent : parts.content = ls.dropWhile (·.isLiminal)) {phase' : Phase}
    (h : (phase.takeParts r parts).result = .ok phase') :
    Deed.OfLine r.lineNumber r.macros ls (phase.partsDeeds r parts) := by
  have hhead : ∀ l ∈ parts.content.head?, l.isLiminal = false := by
    intro l hl
    have hnot := List.head?_dropWhile_not (·.isLiminal) ls
    rw [← hcontent, Option.mem_def.mp hl] at hnot
    exact hnot
  apply Deed.OfLine.of_dropWhile
  rw [← hcontent]
  unfold takeParts at h
  unfold partsDeeds
  cases hparts : parts.content with
  | nil => exact Deed.ofLine_nil _ _
  | cons l ls =>
      rw [hparts] at h hhead
      cases hlead : phase.addLiminals parts.lead with
      | building d =>
          rw [hlead] at h
          exact Lexer.ofLine_contentDeeds r d (l :: ls) hhead h
      | complete s ahead =>
          rw [hlead] at h
          exact Lexer.ofLine_contentDeeds r (.ofLiminals []) (l :: ls) hhead h

theorem exists_of_takeReading {reading : Reading LineParts} {phase phase' : Phase}
    (h : (phase.takeReading reading).result = .ok phase') :
    ∃ parts, reading.result = .ok parts ∧
      phase.takeReading reading =
        (phase.takeParts reading.reader parts).prepend [] reading.events := by
  unfold takeReading at h ⊢
  cases hresult : reading.result with
  | error e =>
      rw [hresult] at h
      cases h
  | ok parts => exact ⟨parts, rfl, rfl⟩

/-- The deeds of one line, and what it leaves to the lines behind it. -/
theorem deeds_of_takeReading {env : Environment} {line : Text}
    (hline : Line.includedName? line = none) (r : Reader) (phase : Phase)
    (done : List (List Token)) {phase' : Phase}
    (h : (phase.takeReading (r.read env (.ok line))).result = .ok phase') :
    (r.read env (.ok line)).reader.survey = r.survey.step line ∧
      Deed.OfLine (r.lineNumber + 1) r.macros (r.survey.lexemes line)
        (phase.readingDeeds (r.read env (.ok line))) ∧
      (phase.takeReading (r.read env (.ok line))).DoneBy r.source
        (phase.readingDeeds (r.read env (.ok line))) done (phase.tally done) phase' := by
  obtain ⟨parts, hresult, htaking⟩ := exists_of_takeReading h
  obtain ⟨hsurvey, hcontent, hsilent⟩ := Reader.surveyed_read hline hresult
  obtain ⟨hsource, hnumber, _⟩ := Reader.grown_read env r (.ok line)
  have hdeeds : phase.readingDeeds (r.read env (.ok line)) =
      phase.partsDeeds (r.read env (.ok line)).reader parts := by
    rw [readingDeeds, hresult]
  rw [htaking] at h ⊢
  rw [hdeeds]
  refine ⟨hsurvey, ?_, ?_⟩
  · have hall := ofLine_partsDeeds _ phase hcontent h
    rw [hnumber] at hall
    rcases Survey.lexemes_eq_nil_or r.survey line with hnone | hsame
    · rw [hnone] at hall ⊢
      exact hall.of_nil
    · -- a line with lexemes carries out no directive, so its table is the one in front of it
      have hpreprocessor := congrArg Survey.preprocessor hsurvey
      have hmacros : (r.read env (.ok line)).reader.macros = r.macros :=
        congrArg Preprocessor.macros (hpreprocessor.trans hsame)
      rwa [hmacros] at hall
  · have hdone := done_partsDeeds _ phase parts done h
    rw [hsource] at hdone
    exact ⟨hdone.perform, by simp [Taking.prepend, hsilent, hdone.report]⟩

end Phase

theorem deeds_of_assemble (env : Environment) {lines : List Text}
    (hlines : ∀ line ∈ lines, Line.includedName? line = none) (r : Reader) (phase : Phase)
    (done : List (List Token)) {phase' : Phase}
    (h : (assemble env (lines.map .ok) r phase).result = .ok phase') :
    Deed.Account r.lineNumber (r.survey.rows lines) (assembleDeeds env (lines.map .ok) r phase) ∧
      (assembleDeeds env (lines.map .ok) r phase).flatten.foldlM Deed.perform (phase.tally done) =
        some ⟨done ++ ((assemble env (lines.map .ok) r phase).statements ++ phase'.last).map
          Statement.bare, []⟩ ∧
      Event.expansions (assemble env (lines.map .ok) r phase).events =
        (assembleDeeds env (lines.map .ok) r phase).flatten.filterMap (Deed.diagnostic? r.source) := by
  induction lines generalizing r phase done with
  | nil =>
      cases h
      refine ⟨.nil _ phase'.lastDeeds_cases, ?_, ?_⟩
      · simpa [assembleDeeds, assemble] using phase'.perform_lastDeeds done
      · rcases phase'.lastDeeds_cases with hlast | hlast <;>
          simp [assembleDeeds, assemble, hlast, Deed.diagnostic?, Event.expansions, Event.diagnostics]
  | cons line lines ih =>
      obtain ⟨hline, hlines⟩ := List.forall_mem_cons.mp hlines
      simp only [List.map_cons, assemble, assembleDeeds, Taking.followedBy] at h ⊢
      cases htaking : (phase.takeReading (r.read env (.ok line))).result with
      | error e =>
          rw [htaking] at h
          cases h
      | ok phase₁ =>
          rw [htaking] at h
          dsimp only at h ⊢
          obtain ⟨hsurvey, hrow, ⟨hperform, hreport⟩⟩ :=
            Phase.deeds_of_takeReading hline r phase done htaking
          obtain ⟨hsource, hnumber, _⟩ := Reader.grown_read env r (.ok line)
          obtain ⟨hmore, hperform', hreport'⟩ := ih hlines _ phase₁
            (done ++ (phase.takeReading (r.read env (.ok line))).statements.map Statement.bare) h
          rw [hsurvey, hnumber] at hmore
          rw [hsource] at hreport'
          refine ⟨.line hrow hmore, ?_, ?_⟩
          · rw [List.flatten_cons, List.foldlM_append, hperform, Option.bind_eq_bind,
              Option.bind_some, hperform']
            simp [Assembly.prepend]
          · rw [List.flatten_cons, List.filterMap_append, ← hreport, ← hreport',
              ← Event.expansions_append]
            rfl

namespace Lexer

/-- The deeds of a run, line by line, and those at the end of the source. -/
def deeds (env : Environment) (source : Source) (macros : MacroTable) (name : Option Path) :
    List (List Deed) :=
  assembleDeeds env source (.start name macros) (.building (.ofLiminals []))

/-- Macro expansion is that of two passes. The deeds of a run account for the lexemes of every line,
under the macro table in front of the line. Performing them gives the statements of the run, and the
invocations reported while it is lexed are those of the deeds. -/
theorem run_expands (env : Environment) (t : Text) (macros : MacroTable) (name : Option Path)
    (hplain : ∀ line ∈ t.lines, Line.includedName? line = none) {d : Document}
    (h : ((start (.ofText t) macros name).run env).result = .ok d) :
    Deed.Account 0 ((Survey.start macros).rows t.lines) (deeds env (.ofText t) macros name) ∧
      (deeds env (.ofText t) macros name).flatten.foldlM Deed.perform ⟨[], []⟩ =
        some ⟨d.statements.map Statement.bare, []⟩ ∧
      Event.expansions ((start (.ofText t) macros name).run env).events =
        (deeds env (.ofText t) macros name).flatten.filterMap (Deed.diagnostic? name) := by
  obtain ⟨phase, hresult, rfl⟩ := exists_of_run h
  obtain ⟨haccount, hperform, hreport⟩ :=
    deeds_of_assemble env hplain (.start name macros) (.building (.ofLiminals [])) [] hresult
  refine ⟨haccount, hperform, ?_⟩
  rw [events_run]
  exact hreport

theorem run_expands_until_undef :
    ∃ d, ((start (.ofText "#define A b c\nx = A; al&\n  &pha & A\n#undef A\nA\n".toList) .empty
        none).run ⟨.none, [], 0, none⟩).result = .ok d ∧
      d.values = [["x".toList, "=".toList, "b".toList, "c".toList],
        ["alpha".toList, "A".toList]] ∧
      ∃ deeds : List (List Deed), Deed.Account 0 ((Survey.start .empty).rows
          (Text.lines "#define A b c\nx = A; al&\n  &pha & A\n#undef A\nA\n".toList)) deeds ∧
        deeds.flatten.foldlM Deed.perform ⟨[], []⟩ = some ⟨d.statements.map Statement.bare, []⟩ := by
  have hvalues : ((start
      (.ofText "#define A b c\nx = A; al&\n  &pha & A\n#undef A\nA\n".toList) .empty none).run
        ⟨.none, [], 0, none⟩).result.toOption.map Document.values =
        some [["x".toList, "=".toList, "b".toList, "c".toList],
          ["alpha".toList, "A".toList]] := by
    decide +kernel
  obtain ⟨d, hresult, hd⟩ := exists_of_map_toOption hvalues
  obtain ⟨haccount, hperform, _⟩ := run_expands _ _ _ _ (by decide +kernel) hresult
  exact ⟨d, hresult, hd, _, haccount, hperform⟩

end Lexer

end FreeForm
