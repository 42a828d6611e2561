import FreeForm.Proofs.Draft.Carried
import FreeForm.Proofs.Draft.Separable
import Mathlib.Data.List.Induction

namespace FreeForm

/-!
# Printed rows

Line after line the parts of a source are printed rows: each stands for the lexemes of one line, and a
line whose first lexeme is joined goes on with the row that the joined token stands in. Between two
lines that string is open which the newest token leaves open, so that a row is told from the parts
alone, and the rows that are printed can be scanned again. Where every token stood in the source, the
lines lead to what they lead to without macros.
-/

open Lexeme

/-- Whether some parts stop at the end of a line. -/
def Part.EndLine (ps : List Part) : Prop :=
  ∀ p ∈ ps.getLast?, p.text.getLast? = some '\n'

namespace Layout

variable {macros : MacroTable} {σ : Layout}

/-- The newest token of an open statement stands in front of what is between it and the next. -/
theorem exists_of_group_cons {ps : List Part} {w : Word} {older : List Word}
    (h : (start.run ps).group = w :: older) :
    ∃ front, ps = front ++ .token w :: Part.ofLiminals (start.run ps).between := by
  induction ps using List.reverseRecOn with
  | nil => cases h
  | append_singleton ps p ih =>
      rw [run_append] at h ⊢
      cases p with
      | token v =>
          obtain ⟨rfl, _⟩ := List.cons.inj h
          exact ⟨ps, rfl⟩
      | liminal t =>
          have hkept := (group_addLiminal (start.run ps) t).resolve_left fun hnil => by
            cases h.symm.trans hnil
          obtain ⟨front, hfront⟩ := ih (hkept.symm.trans h)
          refine ⟨front, ?_⟩
          have hbetween : ((start.run ps).run [.liminal t]).between = (start.run ps).between ++ [t] := rfl
          rw [hbetween, Part.ofLiminals_append, ← List.cons_append, ← List.append_assoc, ← hfront]
          rfl

theorem getLast?_between {ps : List Part} (hends : Part.EndLine ps)
    (hgroup : (start.run ps).group ≠ []) :
    ∀ t ∈ (start.run ps).between.getLast?, t.getLast? = some '\n' := by
  obtain ⟨w, older, hcons⟩ := List.exists_cons_of_ne_nil hgroup
  obtain ⟨front, hps⟩ := exists_of_group_cons hcons
  intro t ht
  obtain ⟨ts, hts⟩ := List.getLast?_eq_some_iff.mp ht
  refine hends (.liminal t) ?_
  rw [hps, hts, Part.ofLiminals_append, ← List.cons_append, ← List.append_assoc]
  exact List.getLast?_concat

theorem place_addLiminal_of_lineEnd {e : Text} (he : Liminal.ofText e = .lineEnd) :
    (σ.addLiminal e).place = .margin := by
  rw [place_addLiminal, he]
  cases σ.place <;> rfl

/-- Behind a line stands the margin of the next. -/
theorem place_after {ls : List Lexeme} (hrow : Row ls) : (σ.after macros ls).place = .margin := by
  induction hrow generalizing σ with
  | last he htold =>
      obtain ⟨_, hnot, hend⟩ := htold.lineEnd he
      rw [after_cons, lexemeParts_of_not_semantic macros σ hnot]
      exact place_addLiminal_of_lineEnd hend
  | cons _ _ _ ih =>
      rw [after_cons]
      exact ih

theorem seams_run_ofLiminals (σ : Layout) (ts : List Text) :
    (σ.run (Part.ofLiminals ts)).seams = σ.seams := by
  induction ts generalizing σ with
  | nil => rfl
  | cons t ts ih => exact (ih (σ.addLiminal t)).trans (seams_addLiminal σ t)

/-- Joined or not, the tokens that touch the next line are the same ones. -/
theorem Extends.left_of_seams {ls : List Lexeme} {ps ps' : List Part}
    (h : Extends macros ls ps ps') {q : Word × Word} (hq : q ∈ (start.run ps).seams) :
    ∃ v, (q.1, v) ∈ (start.run ps').seams := by
  cases h with
  | whole _ =>
      rw [run_append]
      exact ⟨q.2, (seams_prefix_run _ _).subset hq⟩
  | @joined front w between f l e rest o hps _ _ =>
      have hkept : ∀ {u v}, (u, v) ∈ ((start.run front).addToken ⟨l.text, .joined⟩).seams →
          ∃ v, (u, v) ∈ (start.run (front ++ .token ⟨l.text, .joined⟩ ::
            ((start.run front).addToken ⟨l.text, .joined⟩).partsOf macros rest)).seams := by
        intro u v hu
        rw [run_append]
        exact ⟨v, (seams_prefix_run ((start.run front).addToken _) _).subset hu⟩
      have hold : q ∈ ((start.run front).addToken w).seams := by
        rw [hps, run_append] at hq
        exact (seams_run_ofLiminals ((start.run front).addToken w) between) ▸ hq
      rcases List.mem_append.mp hold with hold | hnew
      · exact hkept (List.mem_append_left _ hold)
      · -- the seam in front of the joined token
        split at hnew
        · rename_i htouches
          obtain ⟨u, hu, rfl⟩ := List.mem_map.mp hnew
          refine hkept (v := ⟨l.text, .joined⟩) (List.mem_append_right _ ?_)
          rw [if_pos htouches]
          exact List.mem_map.mpr ⟨u, hu, rfl⟩
        · cases hnew

/-- Where two tokens meet, the first leaves open what is open. -/
theorem Leaves.of_meets {ls rest : List Lexeme} {w : Word} {f : Lexeme} {o : Option Char}
    (h : σ.Leaves o) (hmeets : σ.Meets ls w f rest) : Line.Leaves w.value o := by
  obtain ⟨hnewest, hkept, _, _, hadjacent⟩ := hmeets
  cases hgroup : σ.group with
  | nil => simp [hgroup] at hnewest
  | cons v older =>
      obtain rfl : v = w := by simpa [hgroup] using hnewest
      rw [Leaves, hgroup] at h
      obtain ⟨t, ts, hbetween, h⟩ := h
      obtain rfl : t = Continuation.mark := by
        have hfirst := (Bool.and_eq_true_iff.mp hadjacent).1
        simpa [hbetween] using hfirst
      rwa [Word.Leaves, if_pos ⟨rfl, hkept⟩] at h

end Layout

namespace Printed

variable {made : Word → Prop} {σ : Layout} {u v : Text} {row ps ps' : List Part} {w w' : Word}
  {o o' opened : Option Char}

theorem leavesBefore_replaced {x : Word} (h : x.LeavesBefore opened (row ++ .token w :: ps)) :
    x.LeavesBefore opened (row ++ .token w' :: ps') := by
  cases row with
  | nil => exact h
  | cons p row => cases p <;> exact h

/-- Another word may stand in the place of a token, with what follows it there. -/
theorem replace (h : Printed made σ u (row ++ .token w :: ps) o) (hmade : made w')
    (hleaves : w'.LeavesBefore opened ps')
    (h' : Printed made ((σ.run row).addToken w') v ps' o') :
    ∃ o'', Printed made σ u (row ++ .token w' :: ps') o'' := by
  generalize hall : row ++ .token w :: ps = all at h
  induction h generalizing row with
  | ended _ _ =>
      have hlength := congrArg List.length hall
      cases row with
      | nil => cases hall
      | cons p row => simp at hlength
  | @token σ k x u rest o₁ o₂ hplace hsemantic hfeed hstarts hexpanded h ih =>
      cases row with
      | nil =>
          have hsource : ∃ l r o, Line.Piece.first? (Line.body (x.value ++ u)) =
              some ⟨l, r, o⟩ ∧ l.isSemantic = true :=
            ⟨_, _, _, by rw [hstarts.content, hstarts.first], hsemantic⟩
          exact ⟨_, .made hmade hplace hsource hleaves h'⟩
      | cons p row =>
          obtain ⟨rfl, rfl⟩ := List.cons.inj hall
          obtain ⟨o'', hrest⟩ := ih h' rfl
          exact ⟨_, .token hplace hsemantic hfeed hstarts hexpanded hrest⟩
  | @liminal σ l u rest o₁ hl hend hfeed hstarts h ih =>
      cases row with
      | nil => cases hall
      | cons p row =>
          obtain ⟨rfl, rfl⟩ := List.cons.inj hall
          obtain ⟨o'', hrest⟩ := ih h' rfl
          exact ⟨_, .liminal hl hend hfeed hstarts hrest⟩
  | @made σ x u u' rest o₁ o₂ hx hplace hsource hbefore h ih =>
      cases row with
      | nil => exact ⟨_, .made hmade hplace hsource hleaves h'⟩
      | cons p row =>
          obtain ⟨rfl, rfl⟩ := List.cons.inj hall
          obtain ⟨o'', hrest⟩ := ih h' rfl
          exact ⟨_, .made hx hplace hsource (leavesBefore_replaced hbefore) hrest⟩

end Printed

/-- The parts of some lines, one row for each. A line that starts inside a string and has no token is
left as it stands, and no other line starts inside a string. -/
inductive PrintedRows : List Part → Prop
  | start : PrintedRows []
  | fresh {ps row : List Part} {u : Text} {o : Option Char} (h : PrintedRows ps)
      (hends : Part.EndLine ps) (hleaves : (Layout.start.run ps).Leaves none)
      (hprinted : Printed (·.origin ≠ .written) (Layout.start.run ps) u row o)
      (hne : row ≠ [.liminal []]) : PrintedRows (ps ++ row)
  | quiet {ps : List Part} {line : Text} {ls : List Lexeme} {q : Char} {o : Option Char}
      (h : PrintedRows ps) (hends : Part.EndLine ps)
      (hleaves : (Layout.start.run ps).Leaves (some q)) (hne : line ≠ [])
      (hphysical : '\n' ∉ line.dropLast) (hscan : scanLine (some q) line = .ok ⟨ls, o⟩)
      (hquiet : ∀ l ∈ ls, l.isSemantic = false)
      (hopen : ((Layout.start.run ps).run (Part.ofLiminals (ls.map Lexeme.text))).Leaves o) :
      PrintedRows (ps ++ Part.ofLiminals (ls.map Lexeme.text))

namespace PrintedRows

/-- The newest token stands among the last of some parts or in front of them. -/
theorem exists_of_append {front ps row : List Part} {w : Word} {between : List Text}
    (h : front ++ .token w :: Part.ofLiminals between = ps ++ row) :
    (∃ back, front = ps ++ back ∧ row = back ++ .token w :: Part.ofLiminals between) ∨
      ∃ ts, ps = front ++ .token w :: Part.ofLiminals ts := by
  rcases List.append_eq_append_iff.mp h with ⟨back, rfl, hback⟩ | ⟨back, rfl, rfl⟩
  · cases back with
    | nil => exact .inl ⟨[], by simp, hback.symm⟩
    | cons p back =>
        rw [List.cons_append, List.cons.injEq] at hback
        obtain ⟨rfl, hback⟩ := hback
        have htaken : Part.ofLiminals (between.take back.length) = back := by
          rw [Part.ofLiminals, List.map_take, ← Part.ofLiminals, hback, List.take_left]
        exact .inr ⟨between.take back.length, by rw [htaken]⟩
  · exact .inl ⟨back, rfl, rfl⟩

/-- The newest token stands in a row of its own line. -/
theorem exists_row {front : List Part} {w : Word} {between : List Text}
    (h : PrintedRows (front ++ .token w :: Part.ofLiminals between)) :
    ∃ ps row behind u o, front = ps ++ row ∧ PrintedRows ps ∧ Part.EndLine ps ∧
      (Layout.start.run ps).Leaves none ∧
      Printed (·.origin ≠ .written) (Layout.start.run ps) u (row ++ .token w :: behind) o := by
  generalize hall : front ++ .token w :: Part.ofLiminals between = all at h
  induction h generalizing between with
  | start => simp at hall
  | @fresh ps row u o h hends hleaves hprinted _ ih =>
      rcases exists_of_append hall with ⟨back, rfl, rfl⟩ | ⟨ts, hts⟩
      · exact ⟨ps, back, _, u, o, rfl, h, hends, hleaves, hprinted⟩
      · exact ih hts.symm
  | quiet _ _ _ _ _ _ _ _ ih =>
      rcases exists_of_append hall with ⟨back, rfl, hback⟩ | ⟨ts, hts⟩
      · have hmem : Part.token w ∈ back ++ .token w :: Part.ofLiminals between := by simp
        rw [← hback] at hmem
        obtain ⟨_, _, hnot⟩ := List.mem_map.mp hmem
        cases hnot
      · exact ih hts.symm

/-- A token that is joined takes the place of its first half, and the rest of the second line that of
what was behind it. -/
theorem join {macros : MacroTable} (hmacros : macros.Named) {front : List Part} {w w' : Word}
    {between : List Text} (h : PrintedRows (front ++ .token w :: Part.ofLiminals between))
    (hw' : w'.origin = .joined) {u : Text} (hfeed : '\n' ∉ Line.body u) {rest : List Lexeme}
    (hrow : Row rest) {o opened : Option Char} (hscan : scanLine none u = .ok ⟨rest, o⟩)
    (hclosed : Line.Closes (behindMark rest))
    (hmark : ∀ t, Line.body u = continuationMark :: t → Line.Leaves w'.value opened)
    (hopened : opened ≠ none → ∃ t, Line.body u = continuationMark :: t) :
    PrintedRows (front ++ .token w' :: ((Layout.start.run front).addToken w').partsOf macros rest) ∧
      (Layout.start.run (front ++
        .token w' :: ((Layout.start.run front).addToken w').partsOf macros rest)).Leaves
          (opened <|> o) := by
  obtain ⟨ps, row, behind, x, o', rfl, hrows, hends, hleaves, hprinted⟩ := h.exists_row
  have hmade : w'.origin ≠ .written := by simp [hw']
  have hkept : w'.origin ≠ .expanded := by simp [hw']
  rw [Layout.run_append]
  have hbehind : Printed (·.origin ≠ .written) (((Layout.start.run ps).run row).addToken w') u
      ((((Layout.start.run ps).run row).addToken w').partsOf macros rest) o :=
    Layout.printed_of_scanLine hmacros hfeed hrow hscan hclosed
  have hbefore := hbehind.leavesBefore_of_mark (w := w')
    (fun t ht => (if_pos ⟨rfl, hkept⟩).mpr (hmark t ht)) hopened
  obtain ⟨o'', hnew⟩ := hprinted.replace hmade hbefore hbehind
  constructor
  · rw [List.append_assoc]
    refine .fresh hrows hends hleaves hnew fun heq => ?_
    have hmem : Part.token w' ∈ [Part.liminal []] := by rw [← heq]; simp
    simp at hmem
  · rw [Layout.run_append, Layout.run_append]
    exact hbehind.leaves_addToken hbefore hbehind.leaves

end PrintedRows

theorem Row.of_append_cons {front ls : List Lexeme} {l : Lexeme} (h : Row (front ++ l :: ls)) :
    Row (l :: ls) := by
  induction front with
  | nil => exact h
  | cons m front ih =>
      generalize hall : m :: front ++ l :: ls = all at h
      cases h with
      | last => simp at hall
      | cons _ _ h =>
          obtain ⟨_, rfl⟩ := List.cons.inj hall
          exact ih h

/-- In front of the token that a line may join stands nothing but liminal text and marks. -/
theorem Layout.Meets.exists_front {σ : Layout} {ls rest : List Lexeme} {w : Word} {f : Lexeme}
    (h : σ.Meets ls w f rest) :
    ∃ front, ls = front ++ f :: rest ∧ (∀ l ∈ front, l.isSemantic = false) ∧
      concealed ls = behindMark rest := by
  obtain ⟨_, hmark⟩ := Lexeme.not_of_isSemantic h.semantic
  have hlead : ∀ l ∈ ls.takeWhile (·.isLiminal), l.isSemantic = false := by
    intro l hl
    have hl := List.all_eq_true.mp (List.all_takeWhile (l := ls)) l hl
    simp [Lexeme.isSemantic_eq, hl]
  have hcut := List.takeWhile_append_dropWhile (p := (·.isLiminal)) (l := ls)
  have hfirst : (Draft.splitMark (ls.dropWhile (·.isLiminal))).2 = f :: rest := h.first
  rw [concealed]
  generalize ls.dropWhile (·.isLiminal) = content at hcut hfirst
  cases content with
  | nil => cases hfirst
  | cons l content =>
      cases hl : l.isContinuation with
      | true =>
          rw [Draft.splitMark, if_pos hl] at hfirst
          obtain rfl : content = f :: rest := hfirst
          refine ⟨ls.takeWhile (·.isLiminal) ++ [l], ?_, fun m hm => ?_, ?_⟩
          · rw [List.append_assoc]
            exact hcut.symm
          · rcases List.mem_append.mp hm with hm | hm
            · exact hlead m hm
            · obtain rfl := List.mem_singleton.mp hm
              simp [Lexeme.isSemantic_eq, hl]
          · exact behindMark_cons_of_not hmark rest
      | false =>
          rw [Draft.splitMark, if_neg (by simp [hl])] at hfirst
          obtain ⟨rfl, rfl⟩ := List.cons.inj hfirst
          exact ⟨_, hcut.symm, hlead, rfl⟩

/-- Behind a token that a line may join stands the rest of that line. -/
theorem Layout.Meets.row {σ : Layout} {ls rest : List Lexeme} {w : Word} {f : Lexeme}
    (h : σ.Meets ls w f rest) (hrow : Row ls) : Row rest := by
  obtain ⟨front, rfl, _⟩ := h.exists_front
  exact hrow.of_append_cons.tail_of_isSemantic h.semantic

/-- What a mark behind the first token of a line hides leaves no string open. -/
theorem Layout.Meets.closes {σ : Layout} {ls rest : List Lexeme} {w : Word} {f : Lexeme}
    (h : σ.Meets ls w f rest) (hsealed : Line.Sealed ls) {u : Text} {o : Option Char}
    (hu : scanLine none u = .ok ⟨rest, o⟩) : Line.Closes (behindMark rest) := by
  obtain ⟨_, _, _, hconcealed⟩ := h.exists_front
  rw [← hconcealed]
  refine hsealed.closes hu ?_
  rw [hconcealed]
  exact Lexeme.behindMark_suffix rest

theorem feed_not_mem_body_of_suffix {line u : Text} (h : '\n' ∉ line.dropLast) (hu : u <:+ line) :
    '\n' ∉ Line.body u := by
  refine Line.feed_not_mem_body_of_dropLast fun hmem => h ?_
  obtain ⟨front, rfl⟩ := hu
  have hne : u ≠ [] := by
    rintro rfl
    cases hmem
  rw [List.dropLast_append_of_ne_nil hne]
  exact List.mem_append_right _ hmem

/-- The parts that the lines of a source lead to, one after the other, with the lexemes of each, and
the string that is open behind them. -/
inductive Printing (macros : MacroTable) : List (List Lexeme) → List Part → Option Char → Prop
  | start : Printing macros [] [] none
  | line {rows : List (List Lexeme)} {ps ps' : List Part} {c o : Option Char} {line : Text}
      {ls : List Lexeme} (h : Printing macros rows ps c) (hends : Part.EndLine ps) (hne : line ≠ [])
      (hphysical : '\n' ∉ line.dropLast) (hrow : Row ls) (hscan : scanLine c line = .ok ⟨ls, o⟩)
      (hextends : Layout.Extends macros ls ps ps') :
      Printing macros (rows ++ [ls]) ps' o

namespace Printing

variable {macros : MacroTable} {rows : List (List Lexeme)} {ps : List Part} {o : Option Char}

theorem place (h : Printing macros rows ps o) : (Layout.start.run ps).place = .margin := by
  cases h with
  | start => rfl
  | line _ _ _ _ hrow _ hextends =>
      cases hextends with
      | whole =>
          rw [Layout.run_append]
          exact Layout.place_after hrow
      | joined _ hmeets _ =>
          rw [Layout.run_append]
          exact Layout.place_after (hmeets.row hrow)

/-- The last part of a line is its end. -/
theorem getLast?_partsOf (macros : MacroTable) {ls : List Lexeme} (hrow : Row ls) (σ : Layout) :
    ∃ e ∈ ls.getLast?, (σ.partsOf macros ls).getLast? = some (.liminal e.text) := by
  induction hrow generalizing σ with
  | @last e he htold =>
      obtain ⟨_, hnot, _⟩ := htold.lineEnd he
      refine ⟨e, rfl, ?_⟩
      rw [Layout.partsOf, Layout.lexemeParts_of_not_semantic macros σ hnot]
      rfl
  | @cons l ls _ _ hrow ih =>
      obtain ⟨e, he, hlast⟩ := ih (σ.run (σ.lexemeParts macros l))
      refine ⟨e, ?_, ?_⟩
      · have hne : ls ≠ [] := by
          rintro rfl
          cases hrow
        rw [List.getLast?_cons_of_ne_nil hne]
        exact he
      · rw [Layout.partsOf, List.getLast?_append, hlast]
        rfl

/-- Behind a line with a line feed the parts stop at the end of a line. -/
theorem endLine_of_extends {ls : List Lexeme} (hrow : Row ls)
    (hfeed : ∀ e ∈ ls.getLast?, e.text.getLast? = some '\n') {ps' : List Part}
    (hextends : Layout.Extends macros ls ps ps') : Part.EndLine ps' := by
  have hends : ∀ (front : List Part) (σ : Layout) {ms : List Lexeme}, Row ms → ms <:+ ls →
      Part.EndLine (front ++ σ.partsOf macros ms) := by
    intro front σ ms hms hsuffix p hp
    obtain ⟨e, he, hlast⟩ := getLast?_partsOf macros hms σ
    rw [List.getLast?_append, hlast] at hp
    obtain rfl := Option.some.inj hp
    obtain ⟨lead, rfl⟩ := hsuffix
    refine hfeed e ?_
    rw [List.getLast?_append, Option.mem_def.mp he]
    rfl
  cases hextends with
  | whole => exact hends _ _ hrow (List.suffix_refl ls)
  | @joined front w between f l e rest o _ hmeets _ =>
      have hrest := hmeets.row hrow
      obtain ⟨lead, rfl, _⟩ := hmeets.exists_front
      have hsuffix : rest <:+ lead ++ f :: rest :=
        (List.suffix_cons f rest).trans (List.suffix_append lead _)
      rw [List.append_cons]
      exact hends _ _ hrest hsuffix

/-- A line that starts outside of strings is a row, or goes on with the newest one. -/
theorem rows_of_fresh (hmacros : macros.Named) (hrows : PrintedRows ps) (hends : Part.EndLine ps)
    (hplace : (Layout.start.run ps).place = .margin) (hleaves : (Layout.start.run ps).Leaves none)
    {line : Text} (hne : line ≠ []) (hphysical : '\n' ∉ line.dropLast) {ls : List Lexeme}
    (hrow : Row ls) (hscan : scanLine none line = .ok ⟨ls, o⟩) (hsealed : Line.Sealed ls)
    {ps' : List Part} (hextends : Layout.Extends macros ls ps ps') :
    PrintedRows ps' ∧ (Layout.start.run ps').Leaves o := by
  cases hextends with
  | whole =>
      have hclosed : (Layout.start.run ps).place.Seals ls := by
        rw [hplace]
        exact hsealed.closes hscan (Lexeme.concealed_suffix ls)
      have hprinted := Layout.printed_of_scanLine hmacros
        (Line.feed_not_mem_body_of_dropLast hphysical) hrow hscan hclosed
      constructor
      · refine .fresh hrows hends hleaves hprinted fun heq => ?_
        rw [heq] at hprinted
        rcases hprinted.liminal_cases with ⟨_, _, _, _, hnil⟩ | ⟨_, _, _, _, hnot, _⟩
        · exact hne hnil
        · exact hnot rfl
      · rw [Layout.run_append]
        rcases hprinted.leaves with ⟨⟨ts, hts⟩, rfl⟩ | hopen
        · rw [hts]
          exact hleaves.ofLiminals ts
        · exact hopen
  | @joined front w between f l e rest om hps hmeets hjoined =>
      have hrest := hmeets.row hrow
      obtain ⟨lead, rfl, hlead, _⟩ := hmeets.exists_front
      obtain ⟨v, o₁, o₂, rfl, hv, rfl, hnone⟩ :=
        Line.exists_scanLine_of_append hscan (List.cons_ne_nil f rest)
      obtain ⟨u, opened, o', rfl, hstarts, hu, rfl⟩ :=
        Line.exists_starts_of_scanLine hv (by rintro rfl; cases hrest)
      obtain rfl := hnone hlead
      have hclosed := hmeets.closes hsealed hu
      have hsuffix : u <:+ concat lead ++ (f.text ++ u) :=
        (List.suffix_append f.text u).trans (List.suffix_append (concat lead) _)
      have hw := hleaves.of_meets hmeets
      subst hps
      change _ ∧ Layout.Leaves _ (opened <|> o')
      refine hrows.join hmacros rfl (feed_not_mem_body_of_suffix hphysical hsuffix) hrest hu hclosed
        (fun t ht => ?_) hstarts.eq_mark_of_opened
      have hfirst := hstarts.first
      have hfne : f.text ≠ [] := Line.Piece.first?_text_ne_nil hfirst
      have hkind : f.kind ≠ .comment := by
        intro hcomment
        have hsemantic := hmeets.semantic
        simp [Lexeme.isSemantic, Lexeme.role, hcomment, Kind.role] at hsemantic
      rw [ht] at hfirst
      exact Line.leaves_of_fresh hjoined hw hfne (Line.leaves_of_first? hfirst hkind)

/-- A line that starts inside a string is left as it stands, or goes on with the newest row. -/
theorem rows_of_carried (hmacros : macros.Named) (hrows : PrintedRows ps) (hends : Part.EndLine ps)
    (hplace : (Layout.start.run ps).place = .margin) {q : Char}
    (hleaves : (Layout.start.run ps).Leaves (some q)) {line : Text} (hne : line ≠ [])
    (hphysical : '\n' ∉ line.dropLast) {ls : List Lexeme} (hrow : Row ls)
    (hscan : scanLine (some q) line = .ok ⟨ls, o⟩) (hsealed : Line.Sealed ls) {ps' : List Part}
    (hextends : Layout.Extends macros ls ps ps')
    (hseams : ∀ p ∈ (Layout.start.run ps').seams, p.1.value.leftOpen = none) :
    PrintedRows ps' ∧ (Layout.start.run ps').Leaves o := by
  have hcarries := carries_of_scanLine hscan
  by_cases hquiet : ∀ l ∈ ls, l.isSemantic = false
  · cases hextends with
    | whole =>
        rw [Layout.partsOf_of_plain macros _ hquiet, Layout.run_append]
        have hopen := Layout.leaves_of_quiet hleaves hplace hrow hcarries hquiet
        exact ⟨.quiet hrows hends hleaves hne hphysical hscan hquiet hopen, hopen⟩
    | joined _ hmeets _ =>
        obtain ⟨front, rfl, _⟩ := hmeets.exists_front
        have hnot := hquiet _ (List.mem_append_right front List.mem_cons_self)
        rw [hmeets.semantic] at hnot
        cases hnot
  · obtain ⟨lead, f, rest, u, opened, o', rfl, rfl, hfront, hf, hcut, hopened, hu⟩ :=
      hcarries.exists_content hquiet
    have hsemantic : f.isSemantic = true := by
      simp [Lexeme.isSemantic, Lexeme.role, hf, Kind.role]
    cases hextends with
    | whole happart =>
        have hgroup : (Layout.start.run ps).group ≠ [] := by
          intro hnil
          rw [Layout.Leaves, hnil] at hleaves
          cases hleaves
        rw [Layout.run_append] at hseams
        obtain ⟨w, hmeets, hnot⟩ := hleaves.exists_not_apart hmacros hplace
          (Layout.getLast?_between hends hgroup) hrow hfront hsemantic hseams
        exact absurd (happart _ _ _ hmeets) hnot
    | @joined front w between f' l e rest' om hps hmeets hjoined =>
        obtain ⟨rfl, rfl⟩ : f' = f ∧ rest' = rest := by
          obtain ⟨_, _, _, hsplit, hmark, _⟩ := splitMark_of_resumption hfront hsemantic rest
          have hfirst := hmeets.first
          rw [hsplit, hmark] at hfirst
          obtain ⟨hf', hrest'⟩ := List.cons.inj hfirst
          exact ⟨hf'.symm, hrest'.symm⟩
        have hrest := hmeets.row hrow
        have hclosed := hmeets.closes hsealed hu
        have hsuffix : u <:+ line := by
          rw [← concat_lexemes_scanLine hscan, ← concat_lexemes_scanLine hu]
          exact ⟨concat (lead ++ [f']), by simp⟩
        have hw := hleaves.of_meets hmeets
        subst hps
        refine hrows.join hmacros rfl (feed_not_mem_body_of_suffix hphysical hsuffix) hrest hu
          hclosed (fun t ht => ?_) hopened
        exact Line.leaves_of_carried hjoined hw (hcut (by rw [ht]; exact List.cons_ne_nil _ t))

/-- Where no token that touches the next line leaves a string open, and nothing that a mark hides does,
the parts of a source are rows, and the newest token leaves open what the lines do. -/
theorem printedRows (hmacros : macros.Named) (h : Printing macros rows ps o)
    (hsealed : ∀ row ∈ rows, Line.Sealed row)
    (hseams : ∀ q ∈ (Layout.start.run ps).seams, q.1.value.leftOpen = none) :
    PrintedRows ps ∧ (Layout.start.run ps).Leaves o := by
  induction h with
  | start => exact ⟨.start, Layout.leaves_of_group_nil rfl⟩
  | @line rows ps ps' c o line ls h hends hne hphysical hrow hscan hextends ih =>
      obtain ⟨hrows, hleaves⟩ := ih (fun row hrow => hsealed row (List.mem_append_left _ hrow))
        fun q hq => by
          obtain ⟨v, hv⟩ := hextends.left_of_seams hq
          exact hseams (q.1, v) hv
      have hsealed : Line.Sealed ls := hsealed ls (by simp)
      cases c with
      | none =>
          exact rows_of_fresh hmacros hrows hends h.place hleaves hne hphysical hrow hscan hsealed
            hextends
      | some q =>
          exact rows_of_carried hmacros hrows hends h.place hleaves hne hphysical hrow hscan hsealed
            hextends hseams

end Printing

namespace Layout

variable {macros : MacroTable} {σ : Layout}

/-- A lexeme that is neither replaced nor dropped leads to what it leads to without macros. -/
theorem lexemeParts_of_written (hmacros : macros.Named) {l : Lexeme}
    (hwritten : ∀ w, .token w ∈ σ.lexemeParts macros l → w.origin = .written)
    (hwhole : (σ.run (σ.lexemeParts macros l)).whole = true) :
    σ.lexemeParts macros l = σ.lexemeParts .empty l := by
  unfold lexemeParts at hwritten hwhole ⊢
  split
  · rename_i hseen
    rw [if_pos hseen] at hwritten hwhole
    have hplace : σ.place ≠ .hidden := by simpa using (Bool.and_eq_true_iff.mp hseen).2
    cases hget : macros.get? l.text with
    | none => rfl
    | some body =>
        rw [hget] at hwritten hwhole
        cases body with
        | nil => exact absurd (hmacros.emptiesNamed _ hget) (ne_name_of_whole hwhole hplace)
        | cons m ms => cases hwritten ⟨m.text, .expanded⟩ List.mem_cons_self
  · rfl

theorem partsOf_of_written (hmacros : macros.Named) {ls : List Lexeme}
    (hwritten : ∀ w, .token w ∈ σ.partsOf macros ls → w.origin = .written)
    (hwhole : (σ.after macros ls).whole = true) : σ.partsOf macros ls = σ.partsOf .empty ls := by
  induction ls generalizing σ with
  | nil => rfl
  | cons l ls ih =>
      rw [partsOf] at hwritten
      rw [after_cons] at hwhole
      have hl := lexemeParts_of_written hmacros (fun w hw => hwritten w (List.mem_append_left _ hw))
        (whole_of_run hwhole)
      rw [partsOf, partsOf, ih (fun w hw => hwritten w (List.mem_append_right _ hw)) hwhole, hl]

/-- Without macros a lexeme is printed as it stands. -/
theorem flatMap_text_partsOf (σ : Layout) (ls : List Lexeme) :
    (σ.partsOf .empty ls).flatMap Part.text = concat ls := by
  induction ls generalizing σ with
  | nil => rfl
  | cons l ls ih =>
      have hl : (σ.lexemeParts .empty l).flatMap Part.text = l.text := by
        unfold lexemeParts
        split <;> simp [MacroTable.get?, MacroTable.empty, Part.text]
      rw [partsOf, List.flatMap_append, ih, hl, concat_cons]

end Layout

/-- Where every token stood in the source, each line leads to what it leads to without macros. -/
theorem Printing.parts_of_written {macros : MacroTable} (hmacros : macros.Named)
    {rows : List (List Lexeme)} {ps : List Part} {o : Option Char} (h : Printing macros rows ps o)
    (hwritten : ∀ w, .token w ∈ ps → w.origin = .written)
    (hwhole : (Layout.start.run ps).whole = true) :
    ps = Layout.start.partsOf .empty rows.flatten := by
  induction h with
  | start => rfl
  | @line rows ps ps' c o line ls _ _ _ _ _ _ hextends ih =>
      cases hextends with
      | whole =>
          rw [Layout.run_append] at hwhole
          have hps := ih (fun w hw => hwritten w (List.mem_append_left _ hw))
            (Layout.whole_of_run hwhole)
          have hls := Layout.partsOf_of_written hmacros
            (fun w hw => hwritten w (List.mem_append_right _ hw)) hwhole
          have hafter : Layout.start.after .empty rows.flatten = Layout.start.run ps := by
            rw [Layout.after, ← hps]
          rw [List.flatten_append, List.flatten_singleton, Layout.partsOf_append, ← hps, hafter, hls]
      | @joined front w between f l e rest om =>
          cases hwritten ⟨l.text, .joined⟩ (List.mem_append_right front List.mem_cons_self)

end FreeForm
