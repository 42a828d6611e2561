import FreeForm.Proofs.Draft.Expansion
import FreeForm.Proofs.Lexer.Alike

namespace FreeForm

/-!
# Between two lines

When a statement is continued, the liminal text behind its newest token starts with the continuation
mark and reaches to the end of the line. Lines that are all liminal text reach to a line end again, so
they do not change whether the token goes on: a place in a source and the same place behind such
lines are alike.
-/

theorem getLast?_of_suffix {α : Type} {l m : List α} {a : α} (h : l <:+ m)
    (hl : l.getLast? = some a) : m.getLast? = some a := by
  obtain ⟨front, rfl⟩ := h
  rw [List.getLast?_append, hl]
  rfl

namespace Continuation

/-- The last part of a liminal text ends a line. -/
def EndsLine (liminals : List Text) : Prop :=
  ∃ t, liminals.getLast? = some t ∧ t.getLast? = some '\n'

theorem EndsLine.append (ls : List Text) {ms : List Text} (h : EndsLine ms) :
    EndsLine (ls ++ ms) := by
  obtain ⟨t, hlast, ht⟩ := h
  exact ⟨t, by simp [List.getLast?_append, hlast], ht⟩

theorem EndsLine.sameBreak {ls ms : List Text} (hls : EndsLine ls) (hms : EndsLine ms) :
    SameBreak (ls ++ ms) ls := by
  obtain ⟨t, hlast, ht⟩ := hls
  obtain ⟨u, hlast', hu⟩ := hms
  cases ls with
  | nil => cases hlast
  | cons l ls =>
      refine ⟨by simp, rfl, ?_⟩
      rw [List.getLast?_append, hlast, hlast']
      simp [ht, hu]

end Continuation

open Continuation

theorem Scanner.lexemes_of_scan {s s' : Scanner} {line : Text} {lexemes : List Lexeme}
    (h : s.scan line = (.ok lexemes, s')) :
    ∃ front, lexemes = front ++ [⟨.lineEnd, Line.terminator line⟩] := by
  obtain ⟨opened, hscan⟩ := scan_eq_ok h
  exact ⟨_, (scanLine_eq_ok hscan).2⟩

namespace Reader

variable {env : Environment} {r : Reader} {line : Text} {parts : LineParts}

/-- A line without content is liminal text up to its end. -/
theorem endsLine_lead (h : (r.read env (.ok line)).result = .ok parts)
    (hcontent : parts.content = []) (hline : line.getLast? = some '\n') : EndsLine parts.lead := by
  have hend := Line.getLast?_terminator hline
  rcases parts_of_readText h with rfl | ⟨lexemes, scanner, hscan, rfl⟩
  · obtain ⟨c, rest, hcons⟩ : ∃ c rest, Line.terminator line = c :: rest :=
      List.exists_cons_of_ne_nil fun hnil => by simp [hnil] at hend
    have hverbatim : Line.verbatim line =
        [Line.body line].filter (!·.isEmpty) ++ [Line.terminator line] := by
      rw [Line.verbatim, ← List.singleton_append, List.filter_append]
      simp [hcons]
    rw [hverbatim]
    exact EndsLine.append _ ⟨_, rfl, hend⟩
  · obtain ⟨front, rfl⟩ := Scanner.lexemes_of_scan hscan
    have hall := List.takeWhile_append_dropWhile (p := (·.isLiminal))
      (l := front ++ [⟨.lineEnd, Line.terminator line⟩])
    rw [show List.dropWhile _ _ = [] from hcontent, List.append_nil] at hall
    unfold LineParts.ofLexemes
    rw [hall, List.map_append]
    exact EndsLine.append _ ⟨_, rfl, hend⟩

/-- The content of a line, if there is any, reaches to the end of the line. -/
theorem getLast?_content (h : (r.read env (.ok line)).result = .ok parts)
    (hcontent : parts.content ≠ []) :
    parts.content.getLast? = some ⟨.lineEnd, Line.terminator line⟩ := by
  rcases parts_of_readText h with rfl | ⟨lexemes, scanner, hscan, rfl⟩
  · exact absurd rfl hcontent
  · obtain ⟨front, rfl⟩ := Scanner.lexemes_of_scan hscan
    have hlast := List.getLast?_eq_some_getLast hcontent
    rw [hlast, ← getLast?_of_suffix (List.dropWhile_suffix _) hlast, List.getLast?_append]
    rfl

end Reader

namespace Draft

/-- Only a continuation mark leaves a statement open, and then the rest of the line is liminal. -/
theorem getLast?_liminals_of_take {macros : MacroTable} {ls : List Lexeme} {d d' : Draft}
    (h : (take macros ls d).1 = .open d') (hne : d'.tokens ≠ []) :
    ∃ l, ls.getLast? = some l ∧ d'.liminals.getLast? = some l.text := by
  induction ls generalizing d with
  | nil =>
      unfold take at h
      split at h
      · rename_i hnone
        cases h
        exact absurd (statement?_eq_none_iff_tokens.mp hnone) hne
      · cases h
  | cons l ls ih =>
      have hbehind : ∀ e, (take macros ls e).1 = .open d' →
          ∃ m, (l :: ls).getLast? = some m ∧ d'.liminals.getLast? = some m.text := by
        intro e he
        obtain ⟨m, hm, hliminals⟩ := ih he
        exact ⟨m, by simp [List.getLast?_cons, hm], hliminals⟩
      unfold take at h
      split at h
      · exact hbehind _ h
      · exact hbehind _ h
      · dsimp only at h
        split at h
        · exact hbehind _ h
        · cases h
      · cases h
        refine ⟨(l :: ls).getLast (List.cons_ne_nil l ls), List.getLast?_eq_some_getLast _, ?_⟩
        simp only [addLiminals, List.getLast?_append, List.getLast?_map,
          List.getLast?_eq_some_getLast (List.cons_ne_nil l ls)]
        rfl
      · exact hbehind _ h

end Draft

theorem Lexer.getLast?_liminals_of_takeContent (r : Reader) (d : Draft) (content : List Lexeme)
    {d' : Draft} (h : (takeContent r d content).result = .ok (.building d'))
    (hne : d'.tokens ≠ []) :
    ∃ l, content.getLast? = some l ∧ d'.liminals.getLast? = some l.text := by
  fun_induction takeContent r d content with
  | case1 d content e hr => cases h
  | case2 d content d₁ rest joined hr d'' findings ht =>
      cases h
      obtain ⟨l, hl, hliminals⟩ := Draft.getLast?_liminals_of_take (congrArg Prod.fst ht) hne
      exact ⟨l, getLast?_of_suffix (Draft.suffix_of_resume hr) hl, hliminals⟩
  | case3 d content d₁ rest joined hr s findings ht => cases h
  | case4 d content d₁ rest joined hr s l ls findings ht ih =>
      obtain ⟨m, hm, hliminals⟩ := ih h
      have hsuffix := (Draft.suffix_of_take ht).trans (Draft.suffix_of_resume hr)
      exact ⟨m, getLast?_of_suffix hsuffix hm, hliminals⟩

namespace Phase

/-- A statement that goes on behind some lines goes on at a line end. -/
def AtLineEnd : Phase → Prop
  | .building d => d.bare ≠ [] → EndsLine d.liminals
  | .complete _ _ => True

theorem atLineEnd_start : (building (.ofLiminals [])).AtLineEnd :=
  fun h => absurd rfl h

theorem AtLineEnd.addLiminals {p : Phase} {ls : List Text} (h : EndsLine ls) :
    (p.addLiminals ls).AtLineEnd := by
  cases p with
  | building d => exact fun _ => EndsLine.append d.liminals h
  | complete s ahead => trivial

/-- Whole lines of liminal text behind a line change nothing. -/
theorem AtLineEnd.alike {p : Phase} (hp : p.AtLineEnd) {ls : List Text} (h : EndsLine ls) :
    (p.addLiminals ls).Alike p := by
  cases p with
  | building d =>
      refine .building ⟨rfl, fun hne => ?_⟩
      exact (hp hne).sameBreak h
  | complete s ahead => exact .complete rfl _ _

theorem atLineEnd_takeContent {r : Reader} {d : Draft} {content : List Lexeme} {p : Phase}
    {last : Lexeme} (hlast : content.getLast? = some last) (hend : last.text.getLast? = some '\n')
    (h : (Lexer.takeContent r d content).result = .ok p) : p.AtLineEnd := by
  cases p with
  | building d' =>
      intro hne
      have htokens : d'.tokens ≠ [] := fun hnil => hne (Draft.bare_eq_nil.mpr hnil)
      obtain ⟨l, hl, hliminals⟩ := Lexer.getLast?_liminals_of_takeContent r d content h htokens
      obtain rfl : last = l := Option.some.inj (hlast.symm.trans hl)
      exact ⟨_, hliminals, hend⟩
  | complete s ahead => trivial

theorem atLineEnd_takeReading {env : Environment} {r : Reader} {line : Text}
    (hline : line.getLast? = some '\n') (p : Phase) {q : Phase}
    (h : (p.takeReading (r.read env (.ok line))).result = .ok q) : q.AtLineEnd := by
  unfold takeReading at h
  cases hread : (r.read env (.ok line)).result with
  | error e => simp [hread] at h
  | ok parts =>
      simp only [hread, Taking.prepend] at h
      unfold takeParts at h
      cases hcontent : parts.content with
      | nil =>
          simp only [hcontent] at h
          obtain rfl := Except.ok.inj h
          exact AtLineEnd.addLiminals (Reader.endsLine_lead hread hcontent hline)
      | cons l ls =>
          have hlast := Reader.getLast?_content hread (by simp [hcontent])
          have hend : (Line.terminator line).getLast? = some '\n' := Line.getLast?_terminator hline
          rw [hcontent] at hlast
          simp only [hcontent] at h
          cases hlead : p.addLiminals parts.lead with
          | building d =>
              simp only [hlead] at h
              exact atLineEnd_takeContent hlast hend h
          | complete s ahead =>
              simp only [hlead, Taking.prepend] at h
              exact atLineEnd_takeContent hlast hend h

/-- Behind whole lines a statement goes on at a line end. -/
theorem atLineEnd_assemble {env : Environment} {lines : List Text}
    (hlines : ∀ line ∈ lines, line.getLast? = some '\n') {r : Reader} {p q : Phase}
    (hp : p.AtLineEnd) (h : (assemble env (lines.map .ok) r p).result = .ok q) :
    q.AtLineEnd := by
  induction lines generalizing r p with
  | nil =>
      cases h
      exact hp
  | cons line lines ih =>
      obtain ⟨hline, hlines⟩ := List.forall_mem_cons.mp hlines
      simp only [List.map_cons, assemble, Taking.followedBy] at h
      cases htaken : (p.takeReading (r.read env (.ok line))).result with
      | error e => simp [htaken] at h
      | ok p' =>
          simp only [htaken] at h
          exact ih hlines (atLineEnd_takeReading hline p htaken) h

end Phase

/-- Lines that are passed over lead to an alike place. -/
theorem Reader.Passes.exists_phase {env : Environment} {lines : List Text} {r r' : Reader}
    (h : Reader.Passes env lines r r') {p : Phase} (hp : p.AtLineEnd) :
    ∃ q events, q.AtLineEnd ∧ q.Alike p ∧ ∀ rest,
      assemble env (lines.map .ok ++ rest) r p = (assemble env rest r' q).prepend [] events := by
  induction h generalizing p with
  | nil r => exact ⟨p, [], hp, .refl p, fun rest => rfl⟩
  | @cons line lines r r₁ r' hend hline _ ih =>
      obtain ⟨lead, events, hread⟩ := hline
      have hresult : (r.read env (.ok line)).result = .ok ⟨lead, []⟩ := by rw [hread]
      have hlead : EndsLine lead := endsLine_lead hresult rfl hend
      obtain ⟨q, later, hq, hqp, hassemble⟩ := ih (Phase.AtLineEnd.addLiminals hlead (p := p))
      refine ⟨q, events ++ later, hq, hqp.trans (hp.alike hlead), fun rest => ?_⟩
      have htaken : p.takeReading (r.read env (.ok line)) =
          ⟨[], .ok (p.addLiminals lead), events⟩ := by
        rw [hread]
        simp [Phase.takeReading, Phase.takeParts, Taking.prepend]
      have hreader : (r.read env (.ok line)).reader = r₁ := by rw [hread]
      simp only [List.map_cons, List.cons_append, assemble, htaken, hreader, Taking.followedBy,
        hassemble, Assembly.prepend_prepend, List.append_nil]

end FreeForm
