import FreeForm.Proofs.Lexer.Alike

namespace FreeForm

/-!
# Lexing one text behind another

The lexer reads ahead before it yields a statement, so at the border of two texts it has already
read lines and carried out directives of the second one when it yields the last statement of the
first. This does not show: unless the border divides a statement, a string or a skipped region, the
two texts are lexed as they are one by one, the second with the macros that the first leaves behind.
-/

/-- A complete statement is yielded, and then the lines lead where they would lead without it. -/
theorem assemble_complete (env : Environment) (lines : Source) {r r' : Reader}
    (hr : r.survey = r'.survey) (s : Statement) (ahead ls : List Text) :
    (assemble env lines r (.complete s ahead)).gists =
      (Yield.statement s).gist :: (assemble env lines r' (.building (.ofLiminals ls))).gists := by
  induction lines generalizing r r' ahead ls with
  | nil =>
      rw [Assembly.gists_ok rfl, Assembly.gists_ok rfl]
      simp [assemble, Phase.last, Draft.ofLiminals, Draft.statement?, Yield.gist]
  | cons line lines ih =>
      obtain ⟨hresult, hsurvey⟩ := Reader.read_alike env hr line
      have hmacros : (r.read env line).reader.macros = (r'.read env line).reader.macros :=
        congrArg Preprocessor.macros (congrArg Survey.preprocessor hsurvey)
      simp only [assemble, Phase.takeReading]
      generalize (r.read env line).result = result at hresult ⊢
      generalize (r'.read env line).result = result' at hresult ⊢
      cases hresult with
      | @error e f he =>
          simp only [Taking.followedBy, Phase.due]
          rw [Assembly.gists_error rfl, Assembly.gists_error rfl, he]
          rfl
      | ok parts =>
          simp only [Taking.followedBy_prepend, Assembly.gists_prepend, Phase.takeParts]
          cases parts.content with
          | nil =>
              -- nothing but liminal text, which belongs to the complete statement
              have hbehind := ih hsurvey (ahead ++ parts.lead) (ls ++ parts.lead)
              simp only [Taking.followedBy, Assembly.gists_prepend]
              exact hbehind
          | cons l lx =>
              have htaken := Lexer.takeContent_alike hmacros
                (Draft.alike_ofLiminals [] (ls ++ parts.lead)) (l :: lx)
              have hbehind := (htaken.followedBy hsurvey lines fun p q hphase =>
                assemble_alike (Reader.readsAlike_survey env) lines hsurvey hphase).gists
              simp only [Phase.addLiminals, Taking.followedBy_prepend, Assembly.gists_prepend]
              rw [hbehind]
              simp [Yield.gist, Draft.ofLiminals, Draft.addLiminals]

/-- A list whose pieces all end with the separator can be cut apart from what follows it. -/
theorem splitAfter_append {α : Type} [DecidableEq α] {separator : α} {l : List α} (m : List α)
    (h : ∀ piece ∈ splitAfter separator l, piece.getLast? = some separator) :
    splitAfter separator (l ++ m) = splitAfter separator l ++ splitAfter separator m := by
  fun_induction splitAfter separator l with
  | case1 => rfl
  | case2 rest ih =>
      obtain ⟨_, hrest⟩ := List.forall_mem_cons.mp h
      rw [List.cons_append, splitAfter, if_pos rfl, ih hrest]
      rfl
  | case3 a rest hne hnil ih =>
      obtain ⟨hlast, _⟩ := List.forall_mem_cons.mp h
      exact absurd (Option.some.inj hlast) hne
  | case4 a rest hne piece pieces hpieces ih =>
      obtain ⟨hlast, hrest⟩ := List.forall_mem_cons.mp h
      have hpiece : piece.getLast? = some separator := by
        cases piece with
        | nil => exact absurd (Option.some.inj hlast) hne
        | cons b bs => simpa using hlast
      rw [hpieces] at ih
      rw [List.cons_append, splitAfter, if_neg hne, ih (List.forall_mem_cons.mpr ⟨hpiece, hrest⟩)]
      rfl

theorem splitAfter_line {α : Type} [DecidableEq α] {separator : α} {l : List α}
    (h : ∀ a ∈ l, a ≠ separator) : splitAfter separator (l ++ [separator]) = [l ++ [separator]] := by
  induction l with
  | nil => simp [splitAfter]
  | cons a l ih =>
      obtain ⟨ha, hl⟩ := List.forall_mem_cons.mp h
      rw [List.cons_append, splitAfter, if_neg ha, ih hl]

theorem splitAfter_of_ne {α : Type} [DecidableEq α] {separator : α} {l : List α} (hne : l ≠ [])
    (h : ∀ a ∈ l, a ≠ separator) : splitAfter separator l = [l] := by
  induction l with
  | nil => exact absurd rfl hne
  | cons a l ih =>
      obtain ⟨ha, hl⟩ := List.forall_mem_cons.mp h
      cases l with
      | nil => simp [splitAfter, ha]
      | cons b l => rw [splitAfter, if_neg ha, ih (List.cons_ne_nil b l) hl]

theorem Source.ofText_append {t : Text} (h : ∀ line ∈ t.lines, line.getLast? = some '\n')
    (u : Text) : ofText (t ++ u) = ofText t ++ ofText u := by
  unfold ofText Text.lines
  rw [splitAfter_append u h, List.map_append]

theorem Source.ofText_line_append {line : Text} (h : '\n' ∉ line) (t : Text) :
    ofText (line ++ ['\n'] ++ t) = .ok (line ++ ['\n']) :: ofText t := by
  have hlines : Text.lines (line ++ ['\n']) = [line ++ ['\n']] :=
    splitAfter_line fun c hc heq => h (heq ▸ hc)
  have hends : ∀ l ∈ Text.lines (line ++ ['\n']), l.getLast? = some '\n' := by
    intro l hl
    rw [hlines] at hl
    rw [List.mem_singleton.mp hl, List.getLast?_concat]
  rw [ofText_append hends, ofText, hlines]
  rfl

theorem Source.ofText_lines_append {between : List Text} (h : ∀ line ∈ between, '\n' ∉ line)
    (t : Text) : ofText (between.flatMap (· ++ ['\n']) ++ t) =
      (between.map (· ++ ['\n'])).map .ok ++ ofText t := by
  induction between with
  | nil => rfl
  | cons line between ih =>
      obtain ⟨hline, hbetween⟩ := List.forall_mem_cons.mp h
      rw [List.flatMap_cons, List.append_assoc, ofText_line_append hline, ih hbetween]
      rfl

/-- What ends a line ends every line in front of it alike. -/
theorem Source.exists_ofText_append {t : Text}
    (ht : t = [] ∨ ['\n'] <+: t ∨ ['\r', '\n'] <+: t) :
    ∃ terminator lines, (terminator = [] ∨ terminator = ['\n'] ∨ terminator = ['\r', '\n']) ∧
      ∀ x : Text, x ≠ [] → '\n' ∉ x → ofText (x ++ t) = .ok (x ++ terminator) :: lines := by
  rcases ht with rfl | ⟨more, rfl⟩ | ⟨more, rfl⟩
  · refine ⟨[], [], .inl rfl, fun x hne hx => ?_⟩
    have hplain : ∀ c ∈ x, c ≠ '\n' := fun c hc heq => hx (heq ▸ hc)
    rw [List.append_nil, ofText, Text.lines, splitAfter_of_ne hne hplain]
    rfl
  · refine ⟨['\n'], ofText more, .inr (.inl rfl), fun x _ hx => ?_⟩
    rw [← List.append_assoc, ofText_line_append hx]
  · refine ⟨['\r', '\n'], ofText more, .inr (.inr rfl), fun x _ hx => ?_⟩
    have hline : '\n' ∉ x ++ ['\r'] := by simpa using hx
    have hcut := ofText_line_append hline more
    simpa using hcut

/-- Whether the next line with content would go on with a statement. -/
def Phase.isContinued : Phase → Bool
  | .building d => !d.tokens.isEmpty
  | .complete _ _ => false

theorem Reader.survey_eq_start {r : Reader} (hopen : r.scanner.openDelimiter = none)
    (hactive : r.isSuppressed = false) : r.survey = Survey.start r.macros := by
  obtain ⟨_, _, ⟨opened⟩, ⟨_, suppressed⟩, _⟩ := r
  obtain rfl : opened = none := hopen
  obtain rfl : suppressed = false := hactive
  rfl

/-- At a border that divides nothing the lines behind it are lexed as from the start. -/
theorem gists_of_not_continued (env : Environment) (lines : Source) {r : Reader}
    {macros : MacroTable} (name : Option Path) (hr : r.survey = Survey.start macros)
    {phase : Phase} (h : phase.isContinued = false) :
    (assemble env lines r phase).gists = phase.last.map (Yield.gist ∘ Yield.statement) ++
      (assemble env lines (.start name macros) (.building (.ofLiminals []))).gists := by
  have hstart : r.survey = (Reader.start name macros).survey := hr
  cases phase with
  | building d =>
      have htokens : d.tokens = [] := by simpa [Phase.isContinued] using h
      have hnone : d.statement? = none := Draft.statement?_eq_none_iff_tokens.mpr htokens
      have halike : d.Alike (.ofLiminals []) := Draft.alike_of_tokens_nil htokens rfl
      rw [(assemble_alike (Reader.readsAlike_survey env) lines hstart (.building halike)).gists]
      simp [Phase.last, hnone]
  | complete s ahead =>
      rw [assemble_complete env lines hstart s ahead []]
      simp [Phase.last, Yield.gist]

namespace Lexer

/-- Whether a source ends inside a statement. -/
def endsContinued (env : Environment) (source : Source) (macros : MacroTable)
    (name : Option Path) : Bool :=
  match (assemble env source (.start name macros) (.building (.ofLiminals []))).result with
  | .ok phase => phase.isContinued
  | .error _ => false

theorem gists_request (env : Environment) (source : Source) (macros : MacroTable)
    (name : Option Path) {m n : Nat} (hn : n ≤ m) :
    ((start source macros name).request env n).1.map Yield.gist =
      ((assemble env source (.start name macros) (.building (.ofLiminals []))).gists ++
        List.replicate m (Except.ok none)).take n := by
  rw [request_eq_take env _ hn, drain_start, List.map_take, List.map_append, List.map_replicate]
  rfl

theorem answers_of_run {env : Environment} {x : Lexer} {d : Document}
    (h : (x.run env).result = .ok d) : (x.drain env).answers = d.statements.map .statement := by
  simp only [run] at h
  cases hfailure : (x.drain env).failure with
  | some e => simp [hfailure] at h
  | none =>
      simp only [hfailure, Except.ok.injEq] at h
      simp [Yielded.answers, hfailure, ← h]

theorem request_of_run {env : Environment} {x : Lexer} {d : Document}
    (h : (x.run env).result = .ok d) (n : Nat) :
    (x.request env (d.statements.length + n)).1 =
      d.statements.map .statement ++ List.replicate n .finished := by
  have hlength : (d.statements.map Yield.statement).length = d.statements.length := by simp
  rw [request_eq_take env x (Nat.le_refl _), answers_of_run h, ← hlength,
    List.take_length_add_append, List.take_replicate, Nat.min_eq_left (Nat.le_add_left _ _)]

/-- A text that lexes and ends outside of every statement, string and skipped region, and another
behind it: requests yield what they yield for the first text, and then what they yield for the
second one with the macros of the first, but for the lines of errors. Behind an error nothing is
yielded. -/
theorem request_append (env : Environment) (t u : Text) (macros : MacroTable) (name : Option Path)
    (hlines : ∀ line ∈ t.lines, line.getLast? = some '\n') {d : Document}
    (hrun : ((start (.ofText t) macros name).run env).result = .ok d)
    (hcontinued : endsContinued env (.ofText t) macros name = false)
    (hopen : ((start (.ofText t) macros name).drain env).lexer.reader.scanner.openDelimiter = none)
    (hactive : ((start (.ofText t) macros name).drain env).lexer.reader.isSuppressed = false) :
    (∀ n, ((start (.ofText t) macros name).request env (d.statements.length + n)).1 =
      d.statements.map .statement ++ List.replicate n .finished) ∧
    (∀ n, ((start (.ofText (t ++ u)) macros name).request env (d.statements.length + n)).1.map
        Yield.gist =
      d.statements.map (Yield.gist ∘ Yield.statement) ++
        ((start (.ofText u) ((start (.ofText t) macros name).run env).macros name).request env
          n).1.map Yield.gist) ∧
    ∀ (x : Lexer) (e : LexError), (x.next env).yield = .failure e →
      ∀ n, ((x.next env).lexer.request env n).1 = List.replicate n .finished := by
  obtain ⟨phase, hresult, hd⟩ := exists_of_run hrun
  refine ⟨request_of_run hrun, fun n => ?_, fun x e he n => request_of_failure he n⟩
  have hborder : phase.isContinued = false := by
    simpa only [endsContinued, hresult] using hcontinued
  have hdrain := drain_start env (.ofText t) macros name
  simp only [run, hdrain, Assembly.yielded, hresult] at hopen hactive ⊢
  have hbehind := gists_of_not_continued env (.ofText u) name
    (Reader.survey_eq_start hopen hactive) hborder
  have hwhole : (assemble env (.ofText (t ++ u)) (.start name macros)
      (.building (.ofLiminals []))).gists =
        d.statements.map (Yield.gist ∘ Yield.statement) ++
          (assemble env (.ofText u) (.start name (assemble env (.ofText t) (.start name macros)
            (.building (.ofLiminals []))).reader.macros) (.building (.ofLiminals []))).gists := by
    rw [Source.ofText_append hlines, assemble_append, hresult]
    dsimp only
    rw [Assembly.gists_prepend, hbehind, hd, List.map_append, List.append_assoc]
  have hlength : (d.statements.map (Yield.gist ∘ Yield.statement)).length =
      d.statements.length := by simp
  rw [gists_request env _ macros name (Nat.le_refl _), hwhole, List.append_assoc, ← hlength,
    List.take_length_add_append, hlength]
  congr 1
  exact (gists_request env (.ofText u) _ name (Nat.le_add_left n _)).symm

theorem request_append_of_fault :
    ∃ d, ((start (.ofText "#define A b\nx = &\n  A; y\n".toList) .empty none).run
        ⟨.none, [], 0, none⟩).result = .ok d ∧
      d.values = [["x".toList, "=".toList, "b".toList], ["y".toList]] ∧
      ∀ n, ((start (.ofText ("#define A b\nx = &\n  A; y\n".toList ++ "! c\nA\n^\n".toList))
          .empty none).request ⟨.none, [], 0, none⟩ (d.statements.length + n)).1.map Yield.gist =
        d.statements.map (Yield.gist ∘ Yield.statement) ++
          ((start (.ofText "! c\nA\n^\n".toList)
            ((start (.ofText "#define A b\nx = &\n  A; y\n".toList) .empty none).run
              ⟨.none, [], 0, none⟩).macros none).request ⟨.none, [], 0, none⟩ n).1.map
            Yield.gist := by
  have hvalues : ((start (.ofText "#define A b\nx = &\n  A; y\n".toList) .empty none).run
      ⟨.none, [], 0, none⟩).result.toOption.map Document.values =
        some [["x".toList, "=".toList, "b".toList], ["y".toList]] := by
    decide +kernel
  obtain ⟨d, hresult, hd⟩ := exists_of_map_toOption hvalues
  refine ⟨d, hresult, hd, ?_⟩
  exact (request_append _ _ "! c\nA\n^\n".toList _ _ (by decide +kernel) hresult
    (by decide +kernel) (by decide +kernel) (by decide +kernel)).2.1

end Lexer

end FreeForm
