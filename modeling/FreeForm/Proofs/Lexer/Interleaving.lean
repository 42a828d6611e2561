import FreeForm.Proofs.Draft.Expansion
import FreeForm.Proofs.Lexer.Requests
import FreeForm.Proofs.Reader.Names
import Mathlib.Logic.Function.Basic

namespace FreeForm

/-!
# Lexers that share a macro table

Several lexers may take turns with one macro table, each going on with what the others have left of
it. What a lexer yields depends on the names its own lines use. As long as no other source changes
one of them, the lexer yields what it yields alone: under the shared table it stays beside the lexer
that runs alone, the two tables binding alike whatever is still to be used.
-/

open MacroTable (AgreeOn Moves)

namespace Draft

theorem addLexeme_congr {t m : MacroTable} {l : Lexeme} (h : t.get? l.text = m.get? l.text)
    (d : Draft) : d.addLexeme m l = d.addLexeme t l := by
  simp only [addLexeme, h]

theorem expansionOf_congr {t m : MacroTable} {l : Lexeme} (h : t.get? l.text = m.get? l.text) :
    expansionOf m l = expansionOf t l := by
  simp only [expansionOf, h]

/-- A draft takes the same of a line under tables that bind its semantic lexemes alike. -/
theorem take_congr {t m : MacroTable} {ls : List Lexeme}
    (h : AgreeOn ((ls.filter (·.isSemantic)).map Lexeme.text) t m) (d : Draft) :
    take m ls d = take t ls d := by
  induction ls generalizing d with
  | nil => rfl
  | cons l ls ih =>
      have hbehind : AgreeOn ((ls.filter (·.isSemantic)).map Lexeme.text) t m := by
        refine h.mono (List.map_subset _ ?_)
        exact ((List.sublist_cons_self l ls).filter _).subset
      unfold take
      cases hrole : l.role with
      | whitespace | comment => exact ih hbehind _
      | separator =>
          dsimp only
          split
          · exact ih hbehind _
          · rfl
      | continuation => rfl
      | semantic =>
          have hsemantic : l.isSemantic = true := by simp [Lexeme.isSemantic, hrole]
          have hget : t.get? l.text = m.get? l.text := by
            refine h l.text (List.mem_map.mpr ⟨l, ?_, rfl⟩)
            exact List.mem_filter.mpr ⟨List.mem_cons_self, hsemantic⟩
          dsimp only
          rw [addLexeme_congr hget, expansionOf_congr hget, ih hbehind]

end Draft

namespace Lexer

@[simp] theorem withMacros_withMacros (x : Lexer) (m n : MacroTable) :
    (x.withMacros m).withMacros n = x.withMacros n := rfl

/-- The names that what a lexer has still to read uses. -/
def usedNames (env : Environment) (x : Lexer) : List Text :=
  match x.status with
  | .ready =>
      (x.cache.filter (·.isSemantic)).map Lexeme.text ++
        Reader.namesOf Survey.usedNames env x.lines x.reader
  | _ => []

/-- The names that what a lexer has still to read changes. -/
def changedNames (env : Environment) (x : Lexer) : List Text :=
  match x.status with
  | .ready => Reader.namesOf Survey.changedNames env x.lines x.reader
  | _ => []

/-- No line that a lexer has still to read includes a file. -/
def IncludesNothing (x : Lexer) : Prop :=
  x.status = .ready → x.lines.includedNames = []

end Lexer

/-- A step beside one under another table. Both yield the same and leave the same lexer, but for its
table; what it has still to use and to change is some of what there was. -/
structure Step.Beside (env : Environment) (used changed : List Text) (t m : MacroTable)
    (s s' : Step) : Prop where
  yield : s'.yield = s.yield
  lexer : s'.lexer = s.lexer.withMacros s'.lexer.macros
  moves : Moves changed t m s.lexer.macros s'.lexer.macros
  used : s.lexer.usedNames env ⊆ used
  changed : s.lexer.changedNames env ⊆ changed
  plain : s.lexer.IncludesNothing

theorem Step.Beside.mono {env : Environment} {used used' changed changed' : List Text}
    {t m : MacroTable} {s s' : Step} (h : Step.Beside env used changed t m s s')
    (hused : used ⊆ used') (hchanged : changed ⊆ changed') :
    Step.Beside env used' changed' t m s s' :=
  ⟨h.yield, h.lexer, h.moves.mono hchanged, List.Subset.trans h.used hused,
    List.Subset.trans h.changed hchanged, h.plain⟩

/-- Steps that follow on readings. -/
theorem Step.Beside.after {env : Environment} {used changed later : List Text}
    {t m u v : MacroTable} {s s' : Step} (h : Step.Beside env used later u v s s')
    (hmoves : Moves changed t m u v) (events events' : List Event) :
    Step.Beside env used (changed ++ later) t m (s.after events) (s'.after events') :=
  ⟨h.yield, h.lexer, hmoves.trans h.moves, h.used,
    List.Subset.trans h.changed (List.subset_append_right changed later), h.plain⟩

namespace Lexer

/-- The names of the semantic lexemes among some. -/
def semanticTexts (ls : List Lexeme) : List Text :=
  (ls.filter (·.isSemantic)).map Lexeme.text

theorem semanticTexts_append (ls ms : List Lexeme) :
    semanticTexts (ls ++ ms) = semanticTexts ls ++ semanticTexts ms := by
  simp [semanticTexts]

variable (env : Environment) (used changed : List Text)

theorem atEnd_beside (r : Reader) (m : MacroTable) (phase : Phase) :
    Step.Beside env used changed r.macros m (atEnd r phase) (atEnd (r.withMacros m) phase) := by
  have hused : ∀ pending, usedNames env ⟨r, [], [], pending, .ready⟩ ⊆ used := fun pending => by
    simp [usedNames, Reader.namesOf]
  have hchanged : ∀ pending, changedNames env ⟨r, [], [], pending, .ready⟩ ⊆ changed :=
    fun pending => by simp [changedNames, Reader.namesOf]
  cases phase with
  | building d =>
      unfold atEnd
      dsimp only
      split <;> exact ⟨rfl, rfl, .refl _ _ _, hused _, hchanged _, fun _ => rfl⟩
  | complete s ahead => exact ⟨rfl, rfl, .refl _ _ _, hused _, hchanged _, fun _ => rfl⟩

theorem atError_beside (r : Reader) (m : MacroTable) (lines : Source) (e : LexError)
    (phase : Phase) :
    Step.Beside env used changed r.macros m (atError r lines e phase)
      (atError (r.withMacros m) lines e phase) := by
  cases phase <;>
    exact ⟨rfl, rfl, .refl _ _ _, List.nil_subset _, List.nil_subset _, fun h => by cases h⟩

variable {env used changed}

section Lines

variable {lines : Source} (hplain : lines.includedNames = [])
include hplain

theorem consume_beside {r : Reader} {m : MacroTable} {next : Reader → Phase → Step}
    {content : List Lexeme} (hcontent : semanticTexts content ⊆ used)
    (hlines : Reader.namesOf Survey.usedNames env lines r ⊆ used)
    (hchanged : Reader.namesOf Survey.changedNames env lines r ⊆ changed)
    (hagree : AgreeOn used r.macros m)
    (hnext : ∀ phase, Step.Beside env used changed r.macros m (next r phase)
      (next (r.withMacros m) phase)) (d : Draft) :
    Step.Beside env used changed r.macros m (consume r lines next d content)
      (consume (r.withMacros m) lines next d content) := by
  unfold consume
  cases hresume : d.resume content with
  | error e =>
      exact ⟨rfl, rfl, .refl _ _ _, List.nil_subset _, List.nil_subset _, fun h => by cases h⟩
  | ok resumed =>
      obtain ⟨d', rest, joined⟩ := resumed
      obtain ⟨front, hfront⟩ := Draft.suffix_of_resume hresume
      have hrest : semanticTexts rest ⊆ used := by
        rw [← hfront, semanticTexts_append] at hcontent
        exact List.Subset.trans (List.subset_append_right _ _) hcontent
      have htake : d'.take m rest = d'.take r.macros rest :=
        Draft.take_congr (hagree.mono hrest) d'
      obtain ⟨_, back, hback, hleft, _⟩ := Draft.take_cases r.macros rest d'
      dsimp only
      rw [Reader.macros_withMacros, htake]
      refine Step.Beside.after ?_ (.refl [] _ _) _ _
      cases hprogress : (d'.take r.macros rest).1 with
      | «open» d'' => exact hnext _
      | closed s left =>
          cases left with
          | nil => exact hnext _
          | cons l ls =>
              rw [hprogress] at hleft
              obtain rfl : back = l :: ls := hleft
              have hleft : semanticTexts (l :: ls) ⊆ used := by
                rw [hback, semanticTexts_append] at hrest
                exact List.Subset.trans (List.subset_append_right _ _) hrest
              refine ⟨rfl, rfl, .refl _ _ _, ?_, hchanged, fun _ => hplain⟩
              exact List.append_subset.mpr ⟨hleft, hlines⟩

theorem atContent_beside {r : Reader} {m : MacroTable} {next : Reader → Phase → Step}
    {content : List Lexeme} (hcontent : semanticTexts content ⊆ used)
    (hlines : Reader.namesOf Survey.usedNames env lines r ⊆ used)
    (hchanged : Reader.namesOf Survey.changedNames env lines r ⊆ changed)
    (hagree : AgreeOn used r.macros m)
    (hnext : ∀ phase, Step.Beside env used changed r.macros m (next r phase)
      (next (r.withMacros m) phase)) (phase : Phase) :
    Step.Beside env used changed r.macros m (atContent r lines next content phase)
      (atContent (r.withMacros m) lines next content phase) := by
  cases phase with
  | building d => exact consume_beside hplain hcontent hlines hchanged hagree hnext d
  | complete s ahead =>
      refine ⟨rfl, rfl, .refl _ _ _, ?_, hchanged, fun _ => hplain⟩
      exact List.append_subset.mpr ⟨hcontent, hlines⟩

theorem advance_beside {m : MacroTable} (r : Reader) (phase : Phase)
    (hagree : AgreeOn (Reader.namesOf Survey.usedNames env lines r) r.macros m) :
    Step.Beside env (Reader.namesOf Survey.usedNames env lines r)
      (Reader.namesOf Survey.changedNames env lines r) r.macros m (advance env lines r phase)
      (advance env lines (r.withMacros m) phase) := by
  induction lines generalizing r phase m with
  | nil => exact atEnd_beside env _ _ r m phase
  | cons line lines ih =>
      cases line with
      | error fault =>
          unfold advance
          dsimp only [Reader.read]
          exact (atError_beside env _ _ { r with lineNumber := r.lineNumber + 1 } m lines
            (.unreadable fault) phase).after (.refl [] _ _) [] []
      | ok line =>
          obtain ⟨hline, hplain⟩ := Source.includedNames_ok_cons hplain
          unfold advance Reader.namesOf
          unfold Reader.namesOf at hagree
          dsimp only
          cases hresult : (r.read env (.ok line)).result with
          | error e =>
              have htested : AgreeOn (Line.testedNames line) r.macros m := by
                rw [Reader.testedNames_of_error hresult]
                intro name hname
                cases hname
              have hread := Reader.read_beside env r hline htested
              have htable := Reader.macros_read_of_error hline hresult
              have htable' := Reader.macros_read_of_error hline (hread.result.trans hresult)
              rw [hread.result, hresult, hread.reader, htable', ← htable]
              exact (atError_beside env _ _ _ m lines e phase).after (.refl [] _ _) _ _
          | ok parts =>
              rw [hresult] at hagree
              have htested : AgreeOn (Line.testedNames line) r.macros m :=
                hagree.mono fun name hname =>
                  List.mem_append_left _ (List.mem_append_left _ hname)
              have hread := Reader.read_beside env r hline htested
              have hbehind := hread.moves.agreeOn
                (hagree.mono (List.subset_append_right (r.survey.usedNames line) _))
              have hnext := fun phase => ih hplain (r.read env (.ok line)).reader phase hbehind
              rw [hread.result, hresult, hread.reader]
              dsimp only
              cases hcontent : parts.content with
              | nil =>
                  refine Step.Beside.after ?_ hread.moves _ _
                  exact (hnext _).mono (List.subset_append_right _ _) (List.Subset.refl _)
              | cons l ls =>
                  refine Step.Beside.after ?_ hread.moves _ _
                  refine atContent_beside hplain ?_ (List.subset_append_right _ _)
                    (List.Subset.refl _) (hread.moves.agreeOn hagree) (fun phase => ?_) _
                  · rw [← hcontent, (Reader.surveyed_read hline hresult).content]
                    refine List.Subset.trans (List.map_subset _ ?_)
                      (List.subset_append_of_subset_left _ (List.subset_append_right _ _))
                    exact ((List.dropWhile_sublist _).filter _).subset
                  · exact (hnext phase).mono (List.subset_append_right _ _) (List.Subset.refl _)

end Lines

/-- A request is answered alike under two tables that bind alike what the lexer has still to use. -/
theorem next_beside {x : Lexer} (hx : x.IncludesNothing) {m : MacroTable}
    (hagree : AgreeOn (x.usedNames env) x.macros m) :
    Step.Beside env (x.usedNames env) (x.changedNames env) x.macros m (x.next env)
      ((x.withMacros m).next env) := by
  obtain ⟨r, lines, cache, pending, status⟩ := x
  cases status with
  | failed =>
      exact ⟨rfl, rfl, .refl _ _ _, List.Subset.refl _, List.Subset.refl _, fun h => by cases h⟩
  | deferred e =>
      exact ⟨rfl, rfl, .refl _ _ _, List.nil_subset _, List.nil_subset _, fun h => by cases h⟩
  | ready =>
      have hplain : lines.includedNames = [] := hx rfl
      have hlines := fun phase => advance_beside hplain r phase
        (hagree.mono (List.subset_append_right (semanticTexts cache) _))
      cases cache with
      | nil => exact hlines _
      | cons l ls =>
          have hnext := fun phase =>
            (hlines phase).mono (List.subset_append_right (semanticTexts (l :: ls)) _)
              (List.Subset.refl _)
          exact consume_beside hplain (List.subset_append_left _ _)
            (List.subset_append_right _ _) (List.Subset.refl _) hagree hnext (.ofLiminals pending)

end Lexer

namespace Interleaving

variable {ι : Type} [DecidableEq ι]

/-- Lexers take turns with one macro table. What each turn yields stands with the lexer whose turn it
was. -/
def takeTurns (env : ι → Environment) : List ι → MacroTable → (ι → Lexer) → List (ι × Yield)
  | [], _, _ => []
  | i :: turns, macros, lexers =>
      let step := ((lexers i).withMacros macros).next (env i)
      (i, step.yield) ::
        takeTurns env turns step.lexer.macros (Function.update lexers i step.lexer)

/-- What one of the lexers yields. -/
def yieldsOf (i : ι) (trace : List (ι × Yield)) : List Yield :=
  (trace.filter (·.1 = i)).map Prod.snd

/-- No lexer has still to change a name that another has still to use. -/
def Apart (env : ι → Environment) (lexers : ι → Lexer) : Prop :=
  ∀ i j, i ≠ j → ∀ name ∈ (lexers i).changedNames (env i), name ∉ (lexers j).usedNames (env j)

variable {env : ι → Environment}

theorem Apart.update {lexers : ι → Lexer} (h : Apart env lexers) (i : ι) {x : Lexer}
    (hused : x.usedNames (env i) ⊆ (lexers i).usedNames (env i))
    (hchanged : x.changedNames (env i) ⊆ (lexers i).changedNames (env i)) :
    Apart env (Function.update lexers i x) := by
  have hless : ∀ j, (Function.update lexers i x j).usedNames (env j) ⊆
        (lexers j).usedNames (env j) ∧
      (Function.update lexers i x j).changedNames (env j) ⊆ (lexers j).changedNames (env j) := by
    intro j
    by_cases hj : j = i
    · subst hj
      rw [Function.update_self]
      exact ⟨hused, hchanged⟩
    · rw [Function.update_of_ne hj]
      exact ⟨List.Subset.refl _, List.Subset.refl _⟩
  intro j k hne name hname hin
  exact h j k hne name ((hless j).2 hname) ((hless k).1 hin)

/-- Lexers that stand beside lexers running alone yield what these do, whoever's turn it is. -/
theorem yieldsOf_takeTurns_beside (turns : List ι) {alone shared : ι → Lexer} {m : MacroTable}
    (hshared : ∀ i m, (shared i).withMacros m = (alone i).withMacros m)
    (hplain : ∀ i, (alone i).IncludesNothing) (hapart : Apart env alone)
    (hagree : ∀ i, AgreeOn ((alone i).usedNames (env i)) (alone i).macros m) (i : ι) :
    yieldsOf i (takeTurns env turns m shared) =
      ((alone i).request (env i) (turns.count i)).1 := by
  induction turns generalizing alone shared m with
  | nil => rfl
  | cons j turns ih =>
      have hstep := Lexer.next_beside (hplain j) (hagree j)
      rw [← hshared j m] at hstep
      have hcons : takeTurns env (j :: turns) m shared =
          (j, (((shared j).withMacros m).next (env j)).yield) ::
            takeTurns env turns (((shared j).withMacros m).next (env j)).lexer.macros
              (Function.update shared j (((shared j).withMacros m).next (env j)).lexer) := rfl
      rw [hcons]
      generalize ((shared j).withMacros m).next (env j) = s' at hstep ⊢
      have hbehind :
          yieldsOf i (takeTurns env turns s'.lexer.macros (Function.update shared j s'.lexer)) =
            ((Function.update alone j ((alone j).next (env j)).lexer i).request (env i)
              (turns.count i)).1 := by
        refine ih (fun k n => ?_) (fun k => ?_) (hapart.update j hstep.used hstep.changed)
          fun k => ?_
        · by_cases hk : k = j
          · subst hk
            rw [Function.update_self, Function.update_self, hstep.lexer,
              Lexer.withMacros_withMacros]
          · rw [Function.update_of_ne hk, Function.update_of_ne hk]
            exact hshared k n
        · by_cases hk : k = j
          · subst hk
            rw [Function.update_self]
            exact hstep.plain
          · rw [Function.update_of_ne hk]
            exact hplain k
        · by_cases hk : k = j
          · subst hk
            rw [Function.update_self]
            exact hstep.moves.agreeOn ((hagree k).mono hstep.used)
          · rw [Function.update_of_ne hk]
            exact hstep.moves.agreeOn_of_disjoint (hagree k) (hapart j k (Ne.symm hk))
      by_cases hj : j = i
      · subst hj
        rw [Function.update_self] at hbehind
        rw [List.count_cons_self, Lexer.request, ← hbehind, ← hstep.yield]
        simp [yieldsOf]
      · rw [Function.update_of_ne (Ne.symm hj)] at hbehind
        rw [List.count_cons_of_ne hj, ← hbehind]
        simp [yieldsOf, hj]

/-- Sources that share a macro table from the start are lexed as each is alone, in whatever order
their statements are asked for, unless one of them changes a name that another uses. -/
theorem yieldsOf_takeTurns (sources : ι → Source) (macros : MacroTable) (names : ι → Option Path)
    (hplain : ∀ i, (sources i).includedNames = [])
    (hapart : Apart env fun i => .start (sources i) macros (names i)) (turns : List ι) (i : ι) :
    yieldsOf i (takeTurns env turns macros fun i => .start (sources i) macros (names i)) =
      ((Lexer.start (sources i) macros (names i)).request (env i) (turns.count i)).1 :=
  yieldsOf_takeTurns_beside turns (fun _ _ => rfl) (fun i _ => hplain i) hapart
    (fun _ _ _ => rfl) i

theorem yieldsOf_takeTurns_two :
    let sources : Bool → Source := fun
      | true => .ofText "#define A b c\nx = A; y\n#ifdef A\nA\n#endif\n".toList
      | false => .ofText "#define Q r\nu = Q\n#undef N\nv = w&\n  &w\n^\n".toList
    let env : Bool → Environment := fun _ => ⟨.none, [], 0, none⟩
    let turns := [false, true, true, false, true, false, false, true, false]
    (∀ i, (sources i).includedNames = []) ∧
      Apart env (fun i => .start (sources i) .empty none) ∧
      ∀ i, yieldsOf i (takeTurns env turns .empty fun i => .start (sources i) .empty none) =
        ((Lexer.start (sources i) .empty none).request (env i) (turns.count i)).1 := by
  intro sources env turns
  have hplain : ∀ i, (sources i).includedNames = [] := by decide +kernel
  have hapart : Apart env (fun i => .start (sources i) .empty none) := by
    unfold Apart
    decide +kernel
  exact ⟨hplain, hapart, yieldsOf_takeTurns sources .empty (fun _ => none) hplain hapart turns⟩

end Interleaving

end FreeForm
