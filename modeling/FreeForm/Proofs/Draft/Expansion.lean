import FreeForm.Proofs.Draft.Bare

namespace FreeForm

/-!
# How lexemes become tokens

What is done to the semantic lexemes of a line can be told from the run: each is pushed behind the
tokens under the macro table of its line, is joined to the last of them, or is left out behind a
continuation mark. These deeds, and the ends of statements among them, can be performed on bare
tokens, without the draft and the liminal text in it. A pushed lexeme that names a macro gives the
tokens of the macro's body and is not looked at again; any other gives itself.
-/

theorem Lexeme.isSemantic_eq (l : Lexeme) :
    l.isSemantic = !(l.isLiminal || l.isContinuation) := by
  unfold isSemantic isLiminal isContinuation
  cases l.role <;> rfl

theorem Lexeme.not_of_isSemantic {l : Lexeme} (h : l.isSemantic = true) :
    l.isLiminal = false ∧ l.isContinuation = false := by
  cases hrole : l.role <;>
    simp_all [Lexeme.isSemantic, Lexeme.isContinuation, Lexeme.isLiminal]

/-- A token of a macro body. Only the first says which macro was invoked. -/
def Token.ofBody (name : Text) (i : Nat) (l : Lexeme) : Token :=
  { ofLexeme l with provenance := if i = 0 then .invocation name else .replacement }

/-- The tokens that a lexeme stands for under a macro table. -/
def Lexeme.tokens (macros : MacroTable) (l : Lexeme) : List Token :=
  match macros.get? l.text with
  | none => [.ofLexeme l]
  | some body => body.mapIdx (Token.ofBody l.text)

inductive Deed where
  /-- The tokens that a lexeme stands for are added to the statement. -/
  | pushed (line : Nat) (macros : MacroTable) (l : Lexeme)
  /-- A lexeme completes the last token, which the liminal text and a mark may divide it from. -/
  | joined (liminals : List Text) (marked : Bool) (l : Lexeme)
  /-- A lexeme stands behind a continuation mark. -/
  | leftOut (l : Lexeme)
  /-- The statement is complete. -/
  | ended

/-- The bare tokens of some statements, and of the one that follows them. -/
structure Tally where
  done : List (List Token)
  current : List Token

namespace Deed

/-- The semantic lexeme that a deed deals with. -/
def lexeme? : Deed → Option Lexeme
  | pushed _ _ l | joined _ _ l | leftOut l => some l
  | ended => none

/-- The diagnostic of a deed: an invocation is reported where it is replaced. -/
def diagnostic? (source : Option Path) : Deed → Option Diagnostic
  | pushed line macros l =>
      (macros.get? l.text).map fun body =>
        ⟨.macroExpanded l.text (body.map Lexeme.text), source, line⟩
  | joined .. | leftOut _ | ended => none

/-- Does a deed. Nothing can be joined unless the halves of a token can be. -/
def perform (a : Tally) : Deed → Option Tally
  | pushed _ macros l => some ⟨a.done, a.current ++ l.tokens macros⟩
  | joined liminals marked l =>
      match a.current.getLast? with
      | none => none
      | some t =>
          match Continuation.rejoin t liminals marked l with
          | .ok (some merged) => some ⟨a.done, a.current.dropLast ++ [merged.bare]⟩
          | _ => none
  | leftOut _ => some a
  | ended => some ⟨a.done ++ [a.current], []⟩

theorem perform_pushed (line : Nat) (macros : MacroTable) (ls : List Lexeme) (a : Tally) :
    (ls.map (pushed line macros)).foldlM perform a =
      some ⟨a.done, a.current ++ ls.flatMap (·.tokens macros)⟩ := by
  induction ls generalizing a with
  | nil => simp
  | cons l ls ih =>
      rw [List.map_cons, List.foldlM_cons, perform, Option.bind_eq_bind, Option.bind_some, ih]
      simp

theorem perform_leftOut (ls : List Lexeme) (a : Tally) :
    (ls.map leftOut).foldlM perform a = some a := by
  induction ls with
  | nil => rfl
  | cons l ls ih => exact ih

end Deed

/-- The halves of a token can be joined without what surrounds the first. -/
theorem Continuation.rejoin_bare {previous merged : Token} {liminals : List Text} {marked : Bool}
    {fragment : Lexeme} (h : rejoin previous liminals marked fragment = .ok (some merged)) :
    ∃ joined, rejoin previous.bare liminals marked fragment = .ok (some joined) ∧
      joined.bare = merged.bare := by
  unfold rejoin at h ⊢
  have hexpanded : previous.bare.isExpanded = previous.isExpanded := rfl
  have hvalue : previous.bare.value = previous.value := rfl
  rw [hexpanded, hvalue]
  split at h
  · cases h
  · rename_i hguard
    rw [if_neg hguard]
    split at h
    · cases h
    · dsimp only
      split at h
      · cases h
        exact ⟨_, rfl, rfl⟩
      · cases h

namespace Draft

theorem tokens_eq_expansion {macros : MacroTable} {l : Lexeme} {body : List Lexeme}
    (h : macros.get? l.text = some body) : l.tokens macros = Token.expansion l.text body := by
  simp only [Lexeme.tokens, h]
  cases body with
  | nil => rfl
  | cons m ms =>
      refine List.mapIdx_eq_iff.mpr fun i => ?_
      cases i with
      | zero => rfl
      | succ i =>
          simp only [Token.expansion, List.getElem?_cons_succ, List.getElem?_map]
          rfl

@[simp] theorem bare_addLexeme (macros : MacroTable) (d : Draft) (l : Lexeme) :
    (d.addLexeme macros l).bare = d.bare ++ l.tokens macros := by
  unfold addLexeme
  split
  · rename_i hget
    simp [Lexeme.tokens, hget]
  · rename_i hget
    simp [Lexeme.tokens, hget]
  · rename_i body _ hget
    rw [bare_foldl_addToken, Token.map_bare_expansion, tokens_eq_expansion hget]

/-- Behind the lexemes taken from a line stand those of the next statement, or a continuation mark
and the text that it makes liminal. -/
def Progress.LeavesOff (back : List Lexeme) : Progress → Prop
  | .open _ => ∀ l ∈ back.head?, l.isContinuation = true
  | .closed _ rest => back = rest

/-- The deeds of `take`: what it adds to the draft is pushed. -/
def takeDeeds (line : Nat) (macros : MacroTable) : List Lexeme → Draft → List Deed
  | [], d =>
      match d.statement? with
      | none => []
      | some _ => [.ended]
  | l :: ls, d =>
      match l.role with
      | .whitespace | .comment => takeDeeds line macros ls (d.addLiminals [l.text])
      | .separator =>
          let between := (l :: ls).takeWhile fun m => m.isLiminal || m.isContinuation
          match (d.addLiminals (between.map Lexeme.text)).statement? with
          | none => takeDeeds line macros ls (d.addLiminals [l.text])
          | some _ => [.ended]
      | .continuation => (ls.filter (·.isSemantic)).map .leftOut
      | .semantic => .pushed line macros l :: takeDeeds line macros ls (d.addLexeme macros l)

/-- The deed of `resume`, if it joins a token. -/
def resumeDeeds (d : Draft) (content : List Lexeme) : List Deed :=
  let (marks, rest) := splitMark content
  match d.tokens, rest with
  | previous :: _, fragment :: _ =>
      match Continuation.rejoin previous d.liminals (!marks.isEmpty) fragment with
      | .ok (some _) => [.joined d.liminals (!marks.isEmpty) fragment]
      | _ => []
  | _, _ => []

/-- The deeds behind the lexemes taken from a line. -/
def Progress.lastDeeds (back : List Lexeme) : Progress → List Deed
  | .open _ => (back.filter (·.isSemantic)).map .leftOut
  | .closed _ _ => [.ended]

/-- The bare tokens behind those of some statements. -/
def Progress.tally (done : List (List Token)) : Progress → Tally
  | .open d => ⟨done, d.bare⟩
  | .closed s _ => ⟨done ++ [s.bare], []⟩

def Progress.bare : Progress → List Token
  | .open d => d.bare
  | .closed s _ => s.bare

theorem filter_isSemantic_between (ls : List Lexeme) :
    (ls.takeWhile fun m => m.isLiminal || m.isContinuation).filter (·.isSemantic) = [] := by
  refine List.filter_eq_nil_iff.mpr fun m hm => ?_
  have hbetween := List.all_eq_true.mp (List.all_takeWhile (l := ls)) m hm
  simp [Lexeme.isSemantic_eq, hbetween]

/-- What becomes of the lexemes of a line: up to some point all semantic ones are pushed and all
invocations reported. -/
structure Takes (macros : MacroTable) (d : Draft) (ls front back : List Lexeme) : Prop where
  cut : ls = front ++ back
  leavesOff : (take macros ls d).1.LeavesOff back
  bare : (take macros ls d).1.bare =
    d.bare ++ (front.filter (·.isSemantic)).flatMap (·.tokens macros)
  findings : (take macros ls d).2 = (front.filter (·.isSemantic)).flatMap (expansionOf macros)
  deeds (line : Nat) : takeDeeds line macros ls d =
    (front.filter (·.isSemantic)).map (.pushed line macros) ++
      (take macros ls d).1.lastDeeds back
  next : ∀ s rest, (take macros ls d).1 = .closed s rest → ∀ l ∈ rest.head?, l.isSemantic = true

theorem take_cases (macros : MacroTable) (ls : List Lexeme) (d : Draft) :
    ∃ front back, Takes macros d ls front back := by
  induction ls generalizing d with
  | nil =>
      cases hs : d.statement? with
      | none =>
          have htake : take macros [] d = (.open d, []) := by simp [take, hs]
          refine ⟨[], [], rfl, ?_, ?_, ?_, ?_, ?_⟩ <;> rw [htake]
          · simp [Progress.LeavesOff]
          · simp [Progress.bare]
          · rfl
          · simp [takeDeeds, hs, Progress.lastDeeds]
          · intro s rest h
            cases h
      | some s =>
          have htake : take macros [] d = (.closed s [], []) := by simp [take, hs]
          refine ⟨[], [], rfl, ?_, ?_, ?_, ?_, ?_⟩ <;> rw [htake]
          · rfl
          · simp [Progress.bare, bare_of_statement? hs]
          · rfl
          · simp [takeDeeds, hs, Progress.lastDeeds]
          · intro s rest h l hl
            cases h
            cases hl
  | cons l ls ih =>
      -- a lexeme that is not semantic is taken in front of whatever the others come to
      have hkept : ∀ d' : Draft, d'.bare = d.bare → l.isSemantic = false →
          take macros (l :: ls) d = take macros ls d' →
          (∀ line, takeDeeds line macros (l :: ls) d = takeDeeds line macros ls d') →
          ∃ front back, Takes macros d (l :: ls) front back := by
        intro d' hd' hl htake hdeeds
        obtain ⟨front, back, rfl, hback, htokens, hfindings, hfront, hnext⟩ := ih d'
        have hskip : (l :: front).filter (·.isSemantic) = front.filter (·.isSemantic) :=
          List.filter_cons_of_neg (by simp [hl])
        refine ⟨l :: front, back, rfl, ?_, ?_, ?_, ?_, ?_⟩
        · rwa [htake]
        · rw [htake, htokens, hd', hskip]
        · rw [htake, hfindings, hskip]
        · intro line
          rw [htake, hdeeds, hfront, hskip]
        · rwa [htake]
      cases hrole : l.role with
      | whitespace =>
          exact hkept (d.addLiminals [l.text]) rfl (by simp [Lexeme.isSemantic, hrole])
            (by simp [take, hrole]) (by simp [takeDeeds, hrole])
      | comment =>
          exact hkept (d.addLiminals [l.text]) rfl (by simp [Lexeme.isSemantic, hrole])
            (by simp [take, hrole]) (by simp [takeDeeds, hrole])
      | separator =>
          cases hs : (d.addLiminals (((l :: ls).takeWhile fun m =>
              m.isLiminal || m.isContinuation).map Lexeme.text)).statement? with
          | none =>
              exact hkept (d.addLiminals [l.text]) rfl (by simp [Lexeme.isSemantic, hrole])
                (by simp [take, hrole, hs]) (by simp [takeDeeds, hrole, hs])
          | some s =>
              have htake : take macros (l :: ls) d = (.closed s ((l :: ls).dropWhile fun m =>
                  m.isLiminal || m.isContinuation), []) := by
                simp [take, hrole, hs]
              refine ⟨(l :: ls).takeWhile fun m => m.isLiminal || m.isContinuation, _,
                List.takeWhile_append_dropWhile.symm, ?_, ?_, ?_, ?_, ?_⟩
              · rw [htake]
                rfl
              · rw [htake, filter_isSemantic_between, List.flatMap_nil, List.append_nil]
                exact (bare_of_statement? hs).trans (bare_addLiminals d _)
              · rw [htake, filter_isSemantic_between, List.flatMap_nil]
              · intro line
                rw [htake, filter_isSemantic_between]
                simp [takeDeeds, hrole, hs, Progress.lastDeeds]
              · intro s' rest h m hm
                rw [htake] at h
                cases h
                have hhead := List.head?_dropWhile_not
                  (fun m : Lexeme => m.isLiminal || m.isContinuation) (l :: ls)
                rw [Option.mem_def.mp hm] at hhead
                simpa [Lexeme.isSemantic_eq] using hhead
      | continuation =>
          have htake : take macros (l :: ls) d =
              (.open (d.addLiminals ((l :: ls).map Lexeme.text)), []) := by
            simp [take, hrole]
          refine ⟨[], l :: ls, rfl, ?_, ?_, ?_, ?_, ?_⟩
          · rw [htake]
            simpa [Progress.LeavesOff, Lexeme.isContinuation] using hrole
          · rw [htake]
            simp [Progress.bare]
          · rw [htake]
            rfl
          · intro line
            rw [htake]
            simp [takeDeeds, hrole, Progress.lastDeeds, Lexeme.isSemantic]
          · intro s rest h
            rw [htake] at h
            cases h
      | semantic =>
          obtain ⟨front, back, rfl, hback, htokens, hfindings, hdeeds, hnext⟩ :=
            ih (d.addLexeme macros l)
          have hl : (l :: front).filter (·.isSemantic) = l :: front.filter (·.isSemantic) :=
            List.filter_cons_of_pos (by simp [Lexeme.isSemantic, hrole])
          have htake : take macros (l :: (front ++ back)) d =
              ((take macros (front ++ back) (d.addLexeme macros l)).1,
                expansionOf macros l ++ (take macros (front ++ back) (d.addLexeme macros l)).2) := by
            simp [take, hrole]
          refine ⟨l :: front, back, rfl, ?_, ?_, ?_, ?_, ?_⟩
          · rwa [htake]
          · rw [htake, htokens, bare_addLexeme, hl, List.flatMap_cons, List.append_assoc]
          · rw [htake, hfindings, hl, List.flatMap_cons]
          · intro line
            rw [htake, hl, List.map_cons, List.cons_append, ← hdeeds]
            simp [takeDeeds, hrole]
          · rwa [htake]

theorem Progress.perform_lastDeeds (back : List Lexeme) (p : Progress)
    (done : List (List Token)) :
    (p.lastDeeds back).foldlM Deed.perform ⟨done, p.bare⟩ = some (p.tally done) := by
  cases p with
  | «open» d => exact Deed.perform_leftOut _ _
  | closed s rest => rfl

/-- The deeds of `take` lead from the tokens of the draft to those of the progress. -/
theorem Takes.perform {macros : MacroTable} {d : Draft} {ls front back : List Lexeme}
    (h : Takes macros d ls front back) (line : Nat) (done : List (List Token)) :
    (takeDeeds line macros ls d).foldlM Deed.perform ⟨done, d.bare⟩ =
      some ((take macros ls d).1.tally done) := by
  rw [h.deeds, List.foldlM_append, Deed.perform_pushed, Option.bind_eq_bind, Option.bind_some,
    ← h.bare, Progress.perform_lastDeeds]

theorem splitMark_eq_drop (content : List Lexeme) :
    ∃ marks, content = marks ++ (splitMark content).2 ∧
      (∀ m ∈ marks, m.isContinuation = true) ∧
      (marks = [] → ∀ l ∈ content.head?, l.isContinuation = false) := by
  cases content with
  | nil => exact ⟨[], rfl, List.forall_mem_nil _, fun _ l hl => by cases hl⟩
  | cons l ls =>
      by_cases hl : l.isContinuation = true
      · exact ⟨[l], by simp [splitMark, hl], by simp [hl], fun h => by cases h⟩
      · exact ⟨[], by simp [splitMark, hl], List.forall_mem_nil _, by simpa using hl⟩

/-- What the front of a line does: the lexemes taken from it, with a mark among them if it starts
with one, hold no semantic one but that which is joined. -/
structure Resumes (d : Draft) (content : List Lexeme) (d' : Draft) (rest front : List Lexeme) :
    Prop where
  cut : content = front ++ rest
  unmarked : front = [] → ∀ l ∈ rest.head?, l.isContinuation = false
  lexemes : (d.resumeDeeds content).filterMap Deed.lexeme? = front.filter (·.isSemantic)
  deeds : d.resumeDeeds content = [] ∨
    ∃ liminals marked fragment, d.resumeDeeds content = [.joined liminals marked fragment]
  perform (done : List (List Token)) :
    (d.resumeDeeds content).foldlM Deed.perform ⟨done, d.bare⟩ = some ⟨done, d'.bare⟩

theorem filter_isSemantic_marks {marks : List Lexeme} (h : ∀ m ∈ marks, m.isContinuation = true) :
    marks.filter (·.isSemantic) = [] := by
  refine List.filter_eq_nil_iff.mpr fun m hm => ?_
  simp [Lexeme.isSemantic_eq, h m hm]

/-- Where nothing is joined, no more than a mark is taken. -/
theorem resumes_of_unjoined {d : Draft} {content : List Lexeme} (h : d.resumeDeeds content = []) :
    ∃ front, Resumes d content (d.addLiminals (splitMark content).1) (splitMark content).2
      front := by
  obtain ⟨marks, hmarks, hall, hnone⟩ := splitMark_eq_drop content
  refine ⟨marks, hmarks, ?_, ?_, .inl h, ?_⟩
  · intro hnil l hl
    rw [hnil, List.nil_append] at hmarks
    rw [← hmarks] at hl
    exact hnone hnil l hl
  · rw [h, filter_isSemantic_marks hall]
    rfl
  · intro done
    rw [h]
    rfl

theorem exists_resumes {d d' : Draft} {content rest : List Lexeme} {events : List Event}
    (h : d.resume content = .ok (d', rest, events)) :
    Event.diagnostics events = [] ∧ ∃ front, Resumes d content d' rest front := by
  unfold resume at h
  dsimp only at h
  split at h
  · rename_i previous older fragment rest' htokens hrest
    split at h
    · cases h
    · rename_i merged hmerged
      cases h
      obtain ⟨marks, hmarks, hall, _⟩ := splitMark_eq_drop content
      obtain ⟨_, hsemantic, _⟩ := Continuation.rejoin_eq_some hmerged
      have hdeeds : d.resumeDeeds content =
          [.joined d.liminals (!(splitMark content).1.isEmpty) fragment] := by
        simp [resumeDeeds, htokens, hrest, hmerged]
      refine ⟨rfl, marks ++ [fragment], ?_, ?_, ?_, .inr ⟨_, _, _, hdeeds⟩, ?_⟩
      · rw [List.append_assoc, List.singleton_append, ← hrest]
        exact hmarks
      · intro hnil
        simp at hnil
      · rw [hdeeds, List.filter_append, filter_isSemantic_marks hall, List.nil_append,
          List.filter_cons_of_pos hsemantic]
        rfl
      · intro done
        obtain ⟨joined, hjoined, hbare⟩ := Continuation.rejoin_bare hmerged
        have hd' : Draft.bare ⟨merged :: older, []⟩ =
            older.reverse.map Token.bare ++ [merged.bare] := bare_of_tokens rfl
        rw [hdeeds, hd', List.foldlM_cons, Deed.perform, bare_of_tokens htokens]
        simp [hjoined, hbare]
    · rename_i hunmerged
      cases h
      refine ⟨rfl, resumes_of_unjoined ?_⟩
      simp [resumeDeeds, htokens, hrest, hunmerged]
  · rename_i hnothing
    cases h
    refine ⟨rfl, resumes_of_unjoined ?_⟩
    unfold resumeDeeds
    dsimp only
    split
    · rename_i previous older fragment rest' htokens hrest
      exact absurd hrest (hnothing previous older fragment rest' htokens)
    · rfl

theorem suffix_of_resume {d d' : Draft} {content rest : List Lexeme} {events : List Event}
    (h : d.resume content = .ok (d', rest, events)) : rest <:+ content := by
  obtain ⟨_, front, hfront⟩ := exists_resumes h
  exact ⟨front, hfront.cut.symm⟩

theorem suffix_of_take {macros : MacroTable} {ls rest : List Lexeme} {d : Draft} {s : Statement}
    {findings : List Finding} (h : take macros ls d = (.closed s rest, findings)) :
    rest <:+ ls := by
  obtain ⟨front, back, hls, hback, _⟩ := take_cases macros ls d
  rw [h] at hback
  obtain rfl : back = rest := hback
  exact ⟨front, hls.symm⟩

end Draft

end FreeForm
