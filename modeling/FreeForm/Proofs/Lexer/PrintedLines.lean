import FreeForm.Proofs.Draft.PrintedRows
import FreeForm.Proofs.Lexer.WholeLines

namespace FreeForm

/-!
# Printed lines

Printed rows are the lines of their text, and each line scans into its row: a line that starts outside
of strings because its tokens can be told apart, and one that starts inside a string because it stands
as it stood in the source.
-/

open Lexeme

/-- A piece holds the separator at its end only, and ends with it if it is not the last one. -/
theorem splitAfter_eq_append_cons {α : Type} [DecidableEq α] {separator : α} {l piece : List α}
    {front pieces : List (List α)} (h : splitAfter separator l = front ++ piece :: pieces) :
    piece ≠ [] ∧ separator ∉ piece.dropLast ∧
      (pieces ≠ [] → piece.getLast? = some separator) := by
  fun_induction splitAfter separator l generalizing front piece pieces with
  | case1 => simp at h
  | case2 rest ih =>
      cases front with
      | nil =>
          obtain ⟨rfl, _⟩ := List.cons.inj h
          exact ⟨by simp, by simp, fun _ => rfl⟩
      | cons first front => exact ih (List.cons.inj h).2
  | case3 a rest hne hnil ih =>
      cases front with
      | nil =>
          obtain ⟨rfl, rfl⟩ := List.cons.inj h
          exact ⟨by simp, by simp, fun hnot => absurd rfl hnot⟩
      | cons first front => simp at h
  | case4 a rest hne first others hpieces ih =>
      cases front with
      | nil =>
          obtain ⟨rfl, rfl⟩ := List.cons.inj h
          have hrest : splitAfter separator rest = [] ++ first :: others := hpieces
          obtain ⟨hfirst, hplain, hlast⟩ := ih hrest
          refine ⟨by simp, ?_, fun hothers => ?_⟩
          · rw [List.dropLast_cons_of_ne_nil hfirst]
            simp [hplain, Ne.symm hne]
          · rw [List.getLast?_cons_of_ne_nil hfirst]
            exact hlast hothers
      | cons first' front =>
          obtain ⟨_, hrest⟩ := List.cons.inj h
          have hfront : splitAfter separator rest = (first :: front) ++ piece :: pieces := by
            rw [hpieces, hrest]
            rfl
          exact ih hfront

theorem Text.lines_of_physical {line : Text} (hne : line ≠ []) (h : '\n' ∉ line.dropLast) :
    lines line = [line] := by
  rcases List.eq_nil_or_concat line with rfl | ⟨front, c, rfl⟩
  · exact absurd rfl hne
  · rw [List.concat_eq_append] at h hne ⊢
    rw [List.dropLast_concat] at h
    have hfront : ∀ d ∈ front, d ≠ '\n' := fun d hd heq => h (heq ▸ hd)
    by_cases hc : c = '\n'
    · rw [hc]
      exact splitAfter_line hfront
    · refine splitAfter_of_ne hne fun d hd => ?_
      rcases List.mem_append.mp hd with hd | hd
      · exact hfront d hd
      · rwa [List.mem_singleton.mp hd]

/-- Parts that stop at the end of a line are whole lines. -/
theorem Part.EndLine.lines_append {ps : List Part} (h : EndLine ps) {line : Text} (hne : line ≠ [])
    (hphysical : '\n' ∉ line.dropLast) :
    Text.lines (ps.flatMap Part.text ++ line) = Text.lines (ps.flatMap Part.text) ++ [line] := by
  have hends : ps.flatMap Part.text = [] ∨ (ps.flatMap Part.text).getLast? = some '\n' := by
    rcases List.eq_nil_or_concat ps with rfl | ⟨front, p, rfl⟩
    · exact .inl rfl
    · rw [List.concat_eq_append] at h ⊢
      have hlast := h p List.getLast?_concat
      obtain ⟨t, ht⟩ := List.getLast?_eq_some_iff.mp hlast
      right
      rw [List.flatMap_append, List.flatMap_cons, List.flatMap_nil, List.append_nil, ht,
        ← List.append_assoc, List.getLast?_concat]
  rw [← Text.lines_of_physical hne hphysical]
  exact splitAfter_append line fun _ => Text.getLast?_of_mem_lines hends

namespace Printed

variable {σ : Layout} {u : Text} {ps : List Part} {o : Option Char}

theorem feed_not_mem (h : Printed (fun _ => False) σ u ps o) : '\n' ∉ u.dropLast := by
  have happend : ∀ {t u : Text}, '\n' ∉ t → '\n' ∉ u.dropLast → '\n' ∉ (t ++ u).dropLast := by
    intro t u ht hu hmem
    cases u with
    | nil =>
        rw [List.append_nil] at hmem
        exact ht (List.dropLast_subset t hmem)
    | cons c u =>
        rw [List.dropLast_append_of_ne_nil (List.cons_ne_nil c u)] at hmem
        exact (List.mem_append.mp hmem).elim ht hu
  induction h with
  | @ended σ e hbody _ =>
      have hwhole := Line.body_append_terminator e
      rw [hbody, List.nil_append] at hwhole
      rcases Line.terminator_cases e with hend | hend | hend <;> rw [← hwhole, hend] <;> decide
  | token _ _ hfeed _ _ _ ih => exact happend hfeed ih
  | liminal _ _ hfeed _ _ ih => exact happend hfeed ih
  | made hmade => exact hmade.elim

theorem line_ne_nil (h : Printed (fun _ => False) σ u ps o) (hps : ps ≠ [.liminal []]) :
    u ≠ [] := by
  rintro rfl
  rcases h.body_ne_nil with ⟨hnil, _⟩ | hbody
  · exact hps hnil
  · exact hbody rfl

end Printed

theorem Part.Separable.of_append {ps others : List Part} (h : Separable (ps ++ others)) :
    Separable others := by
  induction ps with
  | nil => exact h
  | cons p ps ih =>
      cases p with
      | token => exact ih h.2
      | liminal => exact ih h

/-- The text of some parts scans line by line into what they were printed from, and leaves open what
the newest token does. -/
def Part.Rescanned (ps : List Part) : Prop :=
  ∃ rows o, (Layout.start.run ps).Leaves o ∧
    Layout.start.partsOf .empty rows.flatten = ps.map written ∧
    ∀ more, Scanner.start.scanAll (Text.lines (ps.flatMap text) ++ more) =
      ((Scanner.mk o).scanAll more).map (rows ++ ·)

/-- One line more is scanned in the state that the others leave behind. -/
theorem Part.Rescanned.append {ps row : List Part} (h : Rescanned ps) (hends : EndLine ps)
    {o o' : Option Char} (hopen : (Layout.start.run ps).Leaves o) {line : Text}
    (htext : row.flatMap text = line) (hne : line ≠ []) (hphysical : '\n' ∉ line.dropLast)
    {ls : List Lexeme} (hscan : scanLine o line = .ok ⟨ls, o'⟩)
    (hparts : (Layout.start.run ps).written.partsOf .empty ls = row.map written)
    (hleaves : (Layout.start.run (ps ++ row)).Leaves o') : Rescanned (ps ++ row) := by
  obtain ⟨rows, opened, hopened, hrows, hlines⟩ := h
  obtain rfl := hopened.unique hopen
  refine ⟨rows ++ [ls], o', hleaves, ?_, fun more => ?_⟩
  · have hbehind : Layout.start.after .empty rows.flatten = (Layout.start.run ps).written := by
      rw [Layout.after, hrows, Layout.written_run]
      rfl
    rw [List.flatten_append, List.flatten_singleton, Layout.partsOf_append, hrows, hbehind, hparts,
      List.map_append]
  · have hline : (Scanner.mk opened).scan line = (.ok ls, ⟨o'⟩) := by
      simp [Scanner.scan, hscan]
    rw [List.flatMap_append, htext, hends.lines_append hne hphysical, List.append_assoc, hlines,
      List.singleton_append, Scanner.scanAll, hline]
    dsimp only
    generalize Scanner.scanAll ⟨o'⟩ more = scanned
    cases scanned <;> simp [Except.map]

/-- Printed rows whose tokens can be told apart scan again. -/
theorem PrintedRows.rescanned {ps : List Part} (h : PrintedRows ps) {others : List Part}
    (hparts : Part.Separable (ps ++ others)) (hwhole : (Layout.start.run ps).whole = true) :
    Part.Rescanned ps := by
  induction h generalizing others with
  | start =>
      refine ⟨[], none, Layout.leaves_of_group_nil rfl, rfl, fun more => ?_⟩
      change Scanner.start.scanAll more = (Scanner.start.scanAll more).map id
      cases Scanner.start.scanAll more <;> rfl
  | @fresh ps row u o h hends hleaves hprinted hne ih =>
      rw [List.append_assoc] at hparts
      rw [Layout.run_append] at hwhole
      have hrow := hprinted.separable_of_append hparts.of_append
      obtain ⟨v, o', hexact⟩ := hprinted.exists_printed (fun _ hw => hw) hrow hwhole
      obtain ⟨ls, hscan, hls⟩ := hexact.exists_scanLine hwhole
      refine (ih hparts (Layout.whole_of_run hwhole)).append hends hleaves hexact.flatMap_text
        (hexact.line_ne_nil hne) hexact.feed_not_mem hscan hls ?_
      rw [Layout.run_append]
      rcases hexact.leaves with ⟨⟨ts, rfl⟩, rfl⟩ | hopen
      · exact hleaves.ofLiminals ts
      · exact hopen
  | @quiet ps line ls q o h hends hleaves hne hphysical hscan hquiet hopen ih =>
      rw [List.append_assoc] at hparts
      rw [Layout.run_append] at hwhole
      have htext : (Part.ofLiminals (ls.map Lexeme.text)).flatMap Part.text = line := by
        rw [Part.flatMap_text_ofLiminals, ← concat_lexemes_scanLine hscan, concat, List.flatMap_def]
      have hpartsOf : (Layout.start.run ps).written.partsOf .empty ls =
          (Part.ofLiminals (ls.map Lexeme.text)).map Part.written := by
        rw [Layout.partsOf_of_plain .empty _ hquiet]
        simp [Part.ofLiminals, Part.written]
      refine (ih hparts (Layout.whole_of_run hwhole)).append hends hleaves htext hne hphysical hscan
        hpartsOf ?_
      rwa [Layout.run_append]

end FreeForm
