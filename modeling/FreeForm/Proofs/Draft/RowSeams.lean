import FreeForm.Proofs.Draft.PrintedRows

namespace FreeForm

/-!
# The seam of a line

A line has one seam at most: its first token may touch the newest one. Behind that token, and behind
any other lexeme of its content, nothing of the line touches what stands in front of it.
-/

open Lexeme

theorem Row.told {ls : List Lexeme} {l : Lexeme} (h : Row (l :: ls)) (hls : ls ≠ []) :
    l.kind ≠ .lineEnd ∧ l.Told := by
  cases h with
  | last => exact absurd rfl hls
  | cons hl htold _ => exact ⟨hl, htold⟩

namespace Layout

variable {macros : MacroTable} {σ : Layout}

/-- No token of the line touches the newest token of another line any more. -/
inductive Settled (σ : Layout) : Prop
  | hidden (hplace : σ.place = .hidden)
  | stray (hplace : σ.place = .stray) (hgroup : σ.group = [])
  | inside (hplace : σ.place = .inside)
      (hapart : σ.group = [] ∨ Continuation.touches σ.between = false)

theorem touches_append {ts : List Text} {t : Text} (hmark : Liminal.ofText t ≠ .mark)
    (hend : Liminal.ofText t ≠ .lineEnd) : Continuation.touches (ts ++ [t]) = false := by
  have hne : t ≠ Continuation.mark := by
    rintro rfl
    exact hmark rfl
  have hfeed : t.getLast? ≠ some '\n' := fun hlast => hend (if_pos (.inr hlast))
  simp [Continuation.touches, hne, hfeed]

/-- Liminal text inside a line settles it. -/
theorem settled_of_inside (hplace : σ.place = .inside) {t : Text}
    (hend : Liminal.ofText t ≠ .lineEnd) : (σ.addLiminal t).Settled := by
  have hplain : Liminal.ofText t ≠ .mark → Liminal.ofText t ≠ .separator →
      (σ.addLiminal t).Settled := by
    intro hmark hseparator
    refine .inside ?_ (.inr (touches_append hmark hend))
    rw [place_addLiminal, hplace]
    cases hkind : Liminal.ofText t <;> first | rfl | contradiction
  by_cases hmark : Liminal.ofText t = .mark
  · refine .hidden ?_
    rw [place_addLiminal, hplace, hmark]
    rfl
  · by_cases hseparator : Liminal.ofText t = .separator
    · cases hgroup : σ.group with
      | nil =>
          refine .inside ?_ (.inl ((addLiminal_of_open (.inr hgroup)).1.trans hgroup))
          rw [place_addLiminal, hplace, hseparator, hgroup]
          rfl
      | cons w older =>
          refine .stray ?_ (group_of_closes ?_)
          · rw [place_addLiminal, hplace, hseparator, hgroup]
            rfl
          · rw [hplace, hseparator]
            rfl
    · exact hplain hmark hseparator

theorem Settled.addLiminal (h : σ.Settled) {t : Text} (hend : Liminal.ofText t ≠ .lineEnd) :
    (σ.addLiminal t).Settled := by
  cases h with
  | hidden hplace =>
      refine .hidden ?_
      rw [place_addLiminal, hplace, next_hidden hend]
  | stray hplace hgroup =>
      have hkept : (σ.addLiminal t).group = [] :=
        (addLiminal_of_open (.inr hgroup)).1.trans hgroup
      by_cases hname : Liminal.ofText t = .name
      · refine .inside ?_ (.inl hkept)
        rw [place_addLiminal, hplace, hname]
        rfl
      · refine .stray ?_ hkept
        rw [place_addLiminal, hplace]
        cases hkind : Liminal.ofText t <;> first | rfl | contradiction
  | inside hplace _ => exact settled_of_inside hplace hend

theorem Settled.addToken (h : σ.Settled) (hplace : σ.place ≠ .hidden) (w : Word) :
    (σ.addToken w).seams = σ.seams ∧ (σ.addToken w).Settled := by
  refine ⟨?_, .inside rfl (.inr rfl)⟩
  have hnone : (if Continuation.touches σ.between then σ.group.head?.toList.map (·, w) else []) =
      ([] : List (Word × Word)) := by
    cases h with
    | hidden hhidden => exact absurd hhidden hplace
    | stray _ hgroup => simp [hgroup]
    | inside _ hapart =>
        rcases hapart with hgroup | hbetween
        · simp [hgroup]
        · simp [hbetween]
  exact (congrArg (σ.seams ++ ·) hnone).trans (List.append_nil _)

theorem Settled.run_tokens (h : σ.Settled) (hplace : σ.place ≠ .hidden) (ws : List Word) :
    (σ.run (ws.map .token)).seams = σ.seams ∧ (σ.run (ws.map .token)).Settled := by
  induction ws generalizing σ with
  | nil => exact ⟨rfl, h⟩
  | cons w ws ih =>
      obtain ⟨hseams, hsettled⟩ := h.addToken hplace w
      obtain ⟨hrest, hlast⟩ := ih hsettled (by intro hhidden; cases hhidden)
      exact ⟨hrest.trans hseams, hlast⟩

/-- The rest of a settled line has no seam. -/
theorem Settled.seams_after (macros : MacroTable) (h : σ.Settled) {ls : List Lexeme}
    (hrow : Row ls) :
    (σ.after macros ls).seams = σ.seams := by
  induction hrow generalizing σ with
  | last he htold =>
      obtain ⟨_, hnot, _⟩ := htold.lineEnd he
      rw [after_cons, lexemeParts_of_not_semantic macros σ hnot]
      exact seams_addLiminal σ _
  | @cons l ls hl htold _ ih =>
      rw [after_cons]
      rcases lexemeParts_cases macros σ l with ⟨_, ws, hne, hws⟩ | ⟨hparts, _⟩
      · have hplace : σ.place ≠ .hidden := by
          intro hhidden
          rw [lexemeParts_of_hidden macros hhidden] at hws
          cases ws with
          | nil => exact hne rfl
          | cons w ws => cases hws
        obtain ⟨hseams, hsettled⟩ := h.run_tokens hplace ws
        rw [hws, ih hsettled, hseams]
      · rw [hparts]
        exact (ih (h.addLiminal (htold.role hl).2.2.2.2)).trans (seams_addLiminal σ l.text)

/-- A new seam has the newest token on its left, and on its right the first word that some lexeme
stands for. -/
structure NewSeam (σ : Layout) (f : Lexeme) (q : Word × Word) : Prop where
  semantic : f.isSemantic = true
  newest : σ.group.head? = some q.1
  touches : Continuation.touches σ.between = true
  value : q.2.origin = .written → q.2.value = f.text

/-- A semantic lexeme is the only one of its line that may touch the newest token. -/
theorem newSeam_of_semantic (hmacros : macros.EmptiesNamed) {f : Lexeme} {rest : List Lexeme}
    (hrow : Row (f :: rest)) (hf : f.isSemantic = true) (hplace : σ.place ≠ .hidden)
    {q : Word × Word} (hq : q ∈ (σ.after macros (f :: rest)).seams) :
    q ∈ σ.seams ∨ NewSeam σ f q := by
  have hrest := hrow.tail_of_isSemantic hf
  rw [after_cons] at hq
  unfold lexemeParts at hq
  rw [if_pos (by simp [hf, hplace])] at hq
  have htokens : ∀ (w : Word) (ws : List Word), (w.origin = .written → w.value = f.text) →
      q ∈ ((σ.run ((w :: ws).map .token)).after macros rest).seams →
      q ∈ σ.seams ∨ NewSeam σ f q := by
    intro w ws hvalue hmem
    have hinside : (σ.addToken w).Settled := .inside rfl (.inr rfl)
    have hvisible : (σ.addToken w).place ≠ .hidden := by
      intro hhidden
      cases hhidden
    obtain ⟨hseams, hsettled⟩ := hinside.run_tokens hvisible ws
    have hmem : q ∈ (((σ.addToken w).run (ws.map .token)).after macros rest).seams := hmem
    rw [hsettled.seams_after macros hrest] at hmem
    have hmem : q ∈ (σ.addToken w).seams := hseams ▸ hmem
    refine (List.mem_append.mp hmem).imp id fun hnew => ?_
    split at hnew
    · rename_i htouches
      obtain ⟨v, hv, rfl⟩ := List.mem_map.mp hnew
      exact ⟨hf, by simpa using hv, htouches, hvalue⟩
    · cases hnew
  cases hget : macros.get? f.text with
  | none =>
      rw [hget] at hq
      exact htokens ⟨f.text, .written⟩ [] (fun _ => rfl) hq
  | some body =>
      rw [hget] at hq
      cases body with
      | nil =>
          have hname := hmacros _ hget
          have hsettled : (σ.addLiminal f.text).Settled := by
            refine .inside ?_ (.inr (touches_append (by rw [hname]; decide) (by rw [hname]; decide)))
            rw [place_addLiminal, hname]
            cases hσ : σ.place <;> first | rfl | contradiction
          left
          have hmem : q ∈ (σ.addLiminal f.text).seams := by
            rw [← hsettled.seams_after macros hrest]
            exact hq
          rwa [seams_addLiminal] at hmem
      | cons m ms =>
          exact htokens ⟨m.text, .expanded⟩ (ms.map fun m : Lexeme => ⟨m.text, .expanded⟩)
            (fun h => by cases h) hq

/-- What may touch the newest token is the first lexeme of the content of a line. -/
theorem newSeam_of_mem (hmacros : macros.EmptiesNamed) {ls : List Lexeme} (hrow : Row ls)
    (hready : Draft.Ready σ ls) (hplace : σ.place ≠ .hidden) {q : Word × Word}
    (hq : q ∈ (σ.after macros ls).seams) :
    q ∈ σ.seams ∨ ∃ f rest, ls = f :: rest ∧ NewSeam σ f q := by
  cases hrow with
  | @last e he htold =>
      obtain ⟨_, hnot, _⟩ := htold.lineEnd he
      rw [after_cons, lexemeParts_of_not_semantic macros σ hnot] at hq
      exact .inl (seams_addLiminal σ e.text ▸ hq)
  | @cons f rest hf htold hrest =>
      cases hsemantic : f.isSemantic with
      | true =>
          exact (newSeam_of_semantic hmacros (.cons hf htold hrest) hsemantic hplace hq).imp id
            fun hnew => ⟨f, rest, rfl, hnew⟩
      | false =>
          have hinside := Draft.place_of_ready hready hsemantic
          have hsettled := settled_of_inside hinside (htold.role hf).2.2.2.2
          rw [after_cons, lexemeParts_of_not_semantic macros σ hsemantic] at hq
          have hq : q ∈ (σ.addLiminal f.text).seams := hsettled.seams_after macros hrest ▸ hq
          exact .inl (seams_addLiminal σ f.text ▸ hq)

/-- Liminal text in front of content ends no line and is no mark. -/
theorem ofText_of_isLiminal {l : Lexeme} (hl : l.kind ≠ .lineEnd) (htold : l.Told)
    (hliminal : l.isLiminal = true) :
    Liminal.ofText l.text ≠ .mark ∧ Liminal.ofText l.text ≠ .lineEnd := by
  obtain ⟨hwhite, hcomment, _, hseparator, hend⟩ := htold.role hl
  refine ⟨?_, hend⟩
  cases hrole : l.role with
  | whitespace => rw [hwhite hrole]; decide
  | comment =>
      rw [hcomment hrole]
      split <;> decide
  | separator => rw [hseparator hrole]; decide
  | continuation => simp [Lexeme.isLiminal, hrole] at hliminal
  | semantic => simp [Lexeme.isLiminal, hrole] at hliminal

/-- What touches the newest token where it stands behind the front of a line meets it. -/
theorem NewSeam.meets {τ : Layout} {f : Lexeme} {q : Word × Word} (h : NewSeam τ f q)
    {ls rest : List Lexeme} {lead marks : List Text} {content : List Lexeme}
    (hcut : LineParts.ofLexemes ls = ⟨lead, content⟩)
    (hsplit : Draft.splitMark content = (marks, f :: rest))
    (hmarks : marks = [] ∨ marks = [Continuation.mark]) (hgroup : τ.group = σ.group)
    (hbetween : τ.between = σ.between ++ lead ++ marks)
    (hfeed : σ.group ≠ [] → ∃ t ∈ σ.between.getLast?, t.getLast? = some '\n')
    (hlead : lead ≠ [] → Continuation.touches (σ.between ++ lead) = false)
    (hkept : q.1.origin ≠ .expanded) : σ.Meets ls q.1 f rest := by
  obtain ⟨hsemantic, hnewest, htouches, _⟩ := h
  rw [hgroup] at hnewest
  refine ⟨hnewest, hkept, hsemantic, by rw [hcut, hsplit], ?_⟩
  rw [hcut, hsplit]
  obtain ⟨t, hlast, ht⟩ := hfeed (by rintro hnil; rw [hnil] at hnewest; cases hnewest)
  have hne : σ.between ≠ [] := by
    rintro hnil
    rw [hnil] at hlast
    cases hlast
  rw [hbetween] at htouches
  have hhead : (σ.between ++ lead).head? = some Continuation.mark := by
    have hfirst := (Bool.and_eq_true_iff.mp htouches).1
    rw [List.append_assoc, List.head?_append_of_ne_nil _ hne] at hfirst
    rw [List.head?_append_of_ne_nil _ hne]
    simpa using hfirst
  rcases hmarks with rfl | rfl
  · obtain rfl : lead = [] := by
      by_contra hlead'
      rw [List.append_nil, hlead hlead'] at htouches
      cases htouches
    rw [List.append_nil] at hhead ⊢
    simp [Continuation.isAdjacent, hhead, Option.mem_def.mp hlast, ht]
  · simp [Continuation.isAdjacent, hhead]

/-- A line adds at most one seam, where its first token and the newest one meet. -/
theorem meets_of_mem_seams (hmacros : macros.EmptiesNamed) {ls : List Lexeme} (hrow : Row ls)
    (hplace : σ.place = .margin)
    (hfeed : σ.group ≠ [] → ∃ t ∈ σ.between.getLast?, t.getLast? = some '\n')
    {q : Word × Word} (hq : q ∈ (σ.after macros ls).seams) :
    q ∈ σ.seams ∨ ∃ f rest, (q.2.origin = .written → q.2.value = f.text) ∧
      (q.1.origin ≠ .expanded → σ.Meets ls q.1 f rest) := by
  have hlead : ∀ l ∈ ls.takeWhile (·.isLiminal), l.isLiminal = true :=
    List.all_eq_true.mp List.all_takeWhile
  have hcut := List.takeWhile_append_dropWhile (p := (·.isLiminal)) (l := ls)
  have hnot := List.head?_dropWhile_not (·.isLiminal) ls
  have hofLexemes : LineParts.ofLexemes ls =
      ⟨(ls.takeWhile (·.isLiminal)).map Lexeme.text, ls.dropWhile (·.isLiminal)⟩ := rfl
  generalize ls.takeWhile (·.isLiminal) = lead at *
  generalize ls.dropWhile (·.isLiminal) = content at *
  subst hcut
  have hafter : σ.after macros lead = σ.run (Part.ofLiminals (lead.map Lexeme.text)) := by
    rw [after, partsOf_of_plain macros σ fun l hl => by simp [Lexeme.isSemantic_eq, hlead l hl]]
  have hseams := seams_run_ofLiminals σ (lead.map Lexeme.text)
  rw [after_append, hafter] at hq
  cases content with
  | nil => exact .inl (hseams ▸ hq)
  | cons l content =>
      obtain ⟨hrest, hfront, hgroup⟩ :=
        front_of_lead hrow (List.cons_ne_nil l content) hlead (.inl hplace)
      have hbetween := between_run_ofLiminals σ (lead.map Lexeme.text)
      have hapart : lead.map Lexeme.text ≠ [] →
          Continuation.touches (σ.between ++ lead.map Lexeme.text) = false := by
        intro hne
        obtain ⟨init, m, rfl⟩ := (List.eq_nil_or_concat lead).resolve_left (by simpa using hne)
        rw [List.concat_eq_append, List.append_assoc] at hrow
        obtain ⟨hm, htold⟩ := hrow.of_append_cons.told (List.cons_ne_nil l content)
        obtain ⟨hmark, hend⟩ := ofText_of_isLiminal hm htold (hlead m (by simp))
        rw [List.concat_eq_append, List.map_append, ← List.append_assoc]
        exact touches_append hmark hend
      generalize σ.run (Part.ofLiminals (lead.map Lexeme.text)) = τ at *
      have hliminal : l.isLiminal = false := by simpa using hnot
      generalize hsplit : Draft.splitMark (l :: content) = split
      obtain ⟨marks, rest⟩ := split
      have hentered := Draft.Opening.entered macros ⟨hrest, hfront, l, content, rfl, hliminal⟩ hsplit
      have hsame := seams_run_ofLiminals τ marks
      rw [hentered.after] at hq
      rw [← hseams, ← hsame]
      refine (newSeam_of_mem hmacros hentered.row hentered.ready hentered.visible hq).imp id ?_
      rintro ⟨f, rest, rfl, hnew⟩
      exact ⟨f, rest, hnew.value, hnew.meets hofLexemes hsplit hentered.single
        (hentered.group.trans hgroup) (by rw [between_run_ofLiminals, hbetween]) hfeed hapart⟩

/-- At the margin the open statement has liminal text behind its newest token. -/
theorem exists_getLast?_between {ps : List Part} (hends : Part.EndLine ps)
    (hplace : (start.run ps).place = .margin) (hgroup : (start.run ps).group ≠ []) :
    ∃ t ∈ (start.run ps).between.getLast?, t.getLast? = some '\n' := by
  obtain ⟨w, older, hcons⟩ := List.exists_cons_of_ne_nil hgroup
  obtain ⟨front, hps⟩ := exists_of_group_cons hcons
  have hne : (start.run ps).between ≠ [] := by
    intro hnil
    rw [hnil] at hps
    rw [hps, run_append] at hplace
    cases hplace
  obtain ⟨t, ht⟩ : ∃ t, (start.run ps).between.getLast? = some t :=
    ⟨_, List.getLast?_eq_some_getLast hne⟩
  exact ⟨t, ht, getLast?_between hends hgroup t ht⟩

end Layout

/-- Neighbours that touch and were read where they stand, neither replaced nor joined, stand apart. -/
theorem Printing.apart {macros : MacroTable} (hmacros : macros.EmptiesNamed)
    {rows : List (List Lexeme)} {ps : List Part} {o : Option Char} (h : Printing macros rows ps o) :
    ∀ q ∈ (Layout.start.run ps).seams, q.1.origin ≠ .expanded → q.2.origin = .written →
      Text.Apart q.1.value q.2.value := by
  induction h with
  | start => exact fun _ hq => by cases hq
  | @line _ ps ps' c o line ls h hends _ _ hrow _ hextends ih =>
      intro q hq hkept hwritten
      cases hextends with
      | whole happart =>
          rw [Layout.run_append] at hq
          rcases Layout.meets_of_mem_seams hmacros hrow h.place
            (Layout.exists_getLast?_between hends h.place) hq with hold | ⟨f, rest, hvalue, hmeets⟩
          · exact ih q hold hkept hwritten
          · rw [hvalue hwritten]
            exact happart _ _ _ (hmeets hkept)
      | @joined front w between f l e rest om hps hmeets _ =>
          have hrest := hmeets.row hrow
          have hsettled : ((Layout.start.run front).addToken ⟨l.text, .joined⟩).Settled :=
            .inside rfl (.inr rfl)
          rw [Layout.run_append] at hq
          have hq : q ∈ ((Layout.start.run front).addToken ⟨l.text, .joined⟩).seams :=
            hsettled.seams_after macros hrest ▸ hq
          rcases List.mem_append.mp hq with hold | hnew
          · refine ih q ?_ hkept hwritten
            rw [hps, Layout.run_append]
            exact (Layout.seams_prefix_run _ _).subset hold
          · -- on the right of the new one stands a joined token
            split at hnew
            · obtain ⟨v, _, rfl⟩ := List.mem_map.mp hnew
              cases hwritten
            · cases hnew

end FreeForm
