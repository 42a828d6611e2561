import FreeForm.Proofs.Draft.Scanned
import FreeForm.Proofs.Draft.Seams
import FreeForm.Proofs.Scan.CarriedLine

namespace FreeForm

/-!
# Lines inside a string, laid out

A line that starts inside a string and has no token passes the string on or closes the statement that
the string belongs to. With the token that the string goes on with it meets the newest token: the two
touch, whatever is left open there.
-/

open Lexeme

theorem isLiminal_of_indent {indent : List Lexeme} (h : ∀ l ∈ indent, l.isWhitespace = true) :
    ∀ l ∈ indent, l.isLiminal = true := by
  intro l hl
  have hrole : l.role = .whitespace := by simpa [Lexeme.isWhitespace] using h l hl
  simp [Lexeme.isLiminal, hrole]

namespace Layout

variable {σ : Layout} {ls : List Lexeme}

theorem group_of_front (hrow : Row ls) (hls : ∀ l ∈ ls, l.isLiminal = true)
    (hplace : σ.place = .margin ∨ σ.place = .front) :
    (σ.run (Part.ofLiminals (ls.map Lexeme.text))).group = σ.group := by
  induction hrow generalizing σ with
  | @last e _ _ => exact (addLiminal_of_front hplace e.text).1
  | @cons l ls hl htold _ ih =>
      obtain ⟨hliminal, hls⟩ := List.forall_mem_cons.mp hls
      exact (ih hls (front_of_isLiminal hl htold hliminal hplace)).trans
        (addLiminal_of_front hplace l.text).1

theorem group_of_hidden (hrow : Row ls) (hplace : σ.place = .hidden) :
    (σ.run (Part.ofLiminals (ls.map Lexeme.text))).group = σ.group := by
  induction hrow generalizing σ with
  | @last e _ _ => exact group_addLiminal_of_hidden hplace e.text
  | @cons l ls hl htold _ ih =>
      have hnext : (σ.addLiminal l.text).place = .hidden := by
        rw [place_addLiminal, hplace, next_hidden (htold.role hl).2.2.2.2]
      exact (ih hnext).trans (group_addLiminal_of_hidden hplace l.text)

theorem run_map_append (σ : Layout) (ls ms : List Lexeme) :
    σ.run (Part.ofLiminals ((ls ++ ms).map Lexeme.text)) =
      (σ.run (Part.ofLiminals (ls.map Lexeme.text))).run (Part.ofLiminals (ms.map Lexeme.text)) := by
  rw [List.map_append, Part.ofLiminals_append, run_append]

/-- Behind the liminal text at its front a line is still in front of its content. -/
theorem front_of_lead {lead rest : List Lexeme} (hrow : Row (lead ++ rest)) (hrest : rest ≠ [])
    (hlead : ∀ l ∈ lead, l.isLiminal = true) (hplace : σ.place = .margin ∨ σ.place = .front) :
    Row rest ∧
      ((σ.run (Part.ofLiminals (lead.map Lexeme.text))).place = .margin ∨
        (σ.run (Part.ofLiminals (lead.map Lexeme.text))).place = .front) ∧
      (σ.run (Part.ofLiminals (lead.map Lexeme.text))).group = σ.group := by
  induction lead generalizing σ with
  | nil => exact ⟨hrow, hplace, rfl⟩
  | cons l lead ih =>
      obtain ⟨hliminal, hlead⟩ := List.forall_mem_cons.mp hlead
      generalize hls : l :: lead ++ rest = ls at hrow
      cases hrow with
      | last =>
          simp [hrest] at hls
      | cons hl htold hrow =>
          obtain ⟨rfl, rfl⟩ := List.cons.inj hls
          obtain ⟨hrest, hfront, hgroup⟩ :=
            ih hrow hlead (front_of_isLiminal hl htold hliminal hplace)
          exact ⟨hrest, hfront, hgroup.trans (addLiminal_of_front hplace l.text).1⟩

theorem group_of_closes {t : Text} (h : σ.place.closes (.ofText t) = true) :
    (σ.addLiminal t).group = [] := by
  cases hgroup : σ.group with
  | nil => exact (addLiminal_of_open (.inr hgroup)).1.trans hgroup
  | cons w older => exact (addLiminal_of_closing h (by simp [hgroup])).1

theorem hidden_of_mark (hplace : σ.place = .inside) :
    (σ.addLiminal Continuation.mark).place = .hidden ∧
      (σ.addLiminal Continuation.mark).group = σ.group := by
  have hopen : σ.place.closes (.ofText Continuation.mark) = false := by
    rw [hplace]
    rfl
  refine ⟨?_, (addLiminal_of_open (.inl hopen)).1⟩
  rw [place_addLiminal, hplace]
  rfl

/-- A line that starts inside a string and has no token leaves that open which its scan does. -/
theorem leaves_of_quiet {q : Char} {o : Option Char} (hleaves : σ.Leaves (some q))
    (hplace : σ.place = .margin) (hrow : Row ls) (hcarries : Line.Carries q ls o)
    (hquiet : ∀ l ∈ ls, l.isSemantic = false) :
    (σ.run (Part.ofLiminals (ls.map Lexeme.text))).Leaves o := by
  cases hcarries with
  | passed hls => exact hleaves.of_group_eq (group_of_front hrow hls (.inl hplace))
  | @broken indent e hindent he =>
      obtain ⟨hrest, hfront, _⟩ :=
        front_of_lead hrow (by simp) (isLiminal_of_indent hindent) (.inl hplace)
      obtain ⟨hinside, _⟩ := inside_of_mark hfront
      have hend : Liminal.ofText e.text = .lineEnd := by
        cases hrest.tail (by decide) with
        | last _ htold => exact (htold.lineEnd he).2.2
        | cons hnot _ _ => exact absurd he hnot
      rw [run_map_append]
      refine leaves_of_group_nil (group_of_closes ?_)
      rw [hend]
      exact congrArg (LinePlace.closes · .lineEnd) hinside
  | @again indent behind hindent _ =>
      obtain ⟨hrest, hfront, hkept⟩ :=
        front_of_lead hrow (by simp) (isLiminal_of_indent hindent) (.inl hplace)
      obtain ⟨hinside, hfirst⟩ := inside_of_mark hfront
      obtain ⟨hhidden, hsecond⟩ := hidden_of_mark hinside
      have hbehind := group_of_hidden ((hrest.tail (by decide)).tail (by decide)) hhidden
      refine hleaves.of_group_eq ?_
      rw [run_map_append]
      exact hbehind.trans (hsecond.trans (hfirst.trans hkept))
  | content _ hf =>
      have hnot := hquiet _ (List.mem_append_right _ List.mem_cons_self)
      simp [Lexeme.isSemantic, Lexeme.role, hf, Kind.role] at hnot

/-- Behind what resumes a string a line can be seen, and the statement is still open. -/
theorem group_of_resumption {front rest : List Lexeme} (hfront : Line.Resumption front)
    (hrow : Row (front ++ rest)) (hplace : σ.place = .margin) :
    (σ.run (Part.ofLiminals (front.map Lexeme.text))).place ≠ .hidden ∧
      (σ.run (Part.ofLiminals (front.map Lexeme.text))).group = σ.group := by
  cases hfront with
  | direct => exact ⟨by simp [hplace], rfl⟩
  | @marked indent hindent =>
      rw [List.append_assoc] at hrow
      obtain ⟨_, hfront, hkept⟩ :=
        front_of_lead hrow (by simp) (isLiminal_of_indent hindent) (.inl hplace)
      obtain ⟨hinside, hmark⟩ := inside_of_mark hfront
      rw [run_map_append]
      refine ⟨?_, hmark.trans hkept⟩
      intro hhidden
      cases hinside.symm.trans hhidden

end Layout

theorem Line.Resumption.isSemantic {front : List Lexeme} (h : Resumption front) :
    ∀ l ∈ front, l.isSemantic = false := by
  cases h with
  | direct => exact List.forall_mem_nil _
  | marked hindent =>
      intro l hl
      rcases List.mem_append.mp hl with hl | hl
      · have hrole : l.role = .whitespace := by simpa [Lexeme.isWhitespace] using hindent l hl
        simp [Lexeme.isSemantic, hrole]
      · obtain rfl := List.mem_singleton.mp hl
        rfl

/-- What resumes a string is liminal text, and a mark if there is any. -/
theorem splitMark_of_resumption {front : List Lexeme} (hfront : Line.Resumption front) {f : Lexeme}
    (hf : f.isSemantic = true) (rest : List Lexeme) :
    ∃ lead marks content, LineParts.ofLexemes (front ++ f :: rest) = ⟨lead, content⟩ ∧
      Draft.splitMark content = (marks, f :: rest) ∧ lead ++ marks = front.map Lexeme.text ∧
      (marks = [] ∧ front = [] ∨ marks = [Continuation.mark]) := by
  obtain ⟨hliminal, hmark⟩ := Lexeme.not_of_isSemantic hf
  cases hfront with
  | direct =>
      refine ⟨[], [], f :: rest, ?_, ?_, rfl, .inl ⟨rfl, rfl⟩⟩
      · simp [LineParts.ofLexemes, hliminal]
      · simp [Draft.splitMark, hmark]
  | @marked indent hindent =>
      have hwhite := isLiminal_of_indent hindent
      have hmarker : Line.marker.isLiminal = false := rfl
      refine ⟨indent.map Lexeme.text, [Continuation.mark], Line.marker :: f :: rest, ?_, rfl, ?_,
        .inr rfl⟩
      · rw [LineParts.ofLexemes, List.append_assoc, List.takeWhile_append_of_pos hwhite,
          List.dropWhile_append_of_pos hwhite]
        simp [hmarker]
      · rw [List.map_append]
        rfl

theorem Configuration.isAlphanum_of_isIdentifier {name : Text} (h : isIdentifier name = true) :
    name ≠ [] ∧ ∀ c ∈ name, (c.isAlphanum || c == '_') = true := by
  cases name with
  | nil => cases h
  | cons c rest =>
      obtain ⟨hstart, hrest⟩ := Bool.and_eq_true_iff.mp h
      refine ⟨List.cons_ne_nil c rest, List.forall_mem_cons.mpr ⟨?_, List.all_eq_true.mp hrest⟩⟩
      rcases Bool.or_eq_true_iff.mp hstart with hc | hc <;> simp [Char.isAlphanum, hc]

/-- A string that is left open and the name of a macro are one string. -/
theorem not_apart_of_isIdentifier {v f : Text} {q : Char} (hv : Line.Leaves v (some q))
    (hf : Configuration.isIdentifier f = true) : ¬Text.Apart v f := by
  obtain ⟨hne, hletters⟩ := Configuration.isAlphanum_of_isIdentifier hf
  have hother : ∀ d, (d.isAlphanum || d == '_') = false → d ∉ f := by
    intro d hd hmem
    exact Bool.false_ne_true (hd.symm.trans (hletters d hmem))
  obtain ⟨front, c, rfl⟩ : ∃ front c, f = front ++ [c] := by
    rcases List.eq_nil_or_concat f with rfl | ⟨front, c, rfl⟩
    · exact absurd rfl hne
    · exact ⟨front, c, List.concat_eq_append⟩
  cases hv with
  | @string q x hq hv hx =>
      subst hv
      have hquote : q ∉ front ++ [c] := by rcases hq with rfl | rfl <;> exact hother _ (by decide)
      have hends : ¬EndsMarked (q :: (x ++ (front ++ [c]))) := by
        -- the last character of a name is no mark, and no blank behind one
        rintro ⟨before, blanks, heq, hblanks⟩
        have hlast : c ∈ (continuationMark :: blanks).getLast? := by
          have hwhole := congrArg List.getLast? heq
          rw [← List.append_assoc, ← List.cons_append, List.getLast?_concat,
            List.getLast?_append_of_ne_nil _ (List.cons_ne_nil _ _)] at hwhole
          exact hwhole.symm
        have hmem : c ∈ front ++ [c] := by simp
        rcases List.mem_cons.mp (List.mem_of_getLast? hlast) with rfl | hblank
        · exact hother _ (by decide) hmem
        · have hc := List.all_eq_true.mp hblanks c hblank
          rcases Bool.or_eq_true_iff.mp hc with hc | hc <;> rw [beq_iff_eq] at hc <;> subst hc <;>
            exact hother _ (by decide) hmem
      obtain ⟨ls, o, hscan, hone⟩ :=
        Line.exists_scanFresh_string hq (.within (hx.append (within_of_not_mem hquote)))
      obtain rfl := hone.mpr hends
      rintro ⟨s, hs, hlength⟩
      have hbody : Line.body (q :: x ++ (front ++ [c]) ++ ['\n']) = q :: (x ++ (front ++ [c])) := by
        rw [Line.body_append_feed, if_neg]
        · rfl
        · rw [← List.append_assoc, List.getLast?_concat]
          intro hreturn
          obtain rfl := Option.some.inj hreturn
          exact hother '\r' (by decide) (by simp)
      rw [← hbody] at hscan
      have hone := Line.scanLine_none_eq_ok.mpr ⟨_, hscan, rfl⟩
      rw [hs] at hone
      cases hone
      exact hlength rfl

namespace Layout

variable {macros : MacroTable} {σ : Layout} {q : Char} {front : List Lexeme} {f : Lexeme}

/-- The token that leaves a string open meets what the string goes on with. -/
theorem Leaves.exists_meets (hleaves : σ.Leaves (some q))
    (hfeed : ∀ t ∈ σ.between.getLast?, t.getLast? = some '\n') (hfront : Line.Resumption front)
    (hf : f.isSemantic = true) (rest : List Lexeme) :
    ∃ w, σ.Meets (front ++ f :: rest) w f rest ∧ Line.Leaves w.value (some q) ∧
      Continuation.touches (σ.between ++ front.map Lexeme.text) = true := by
  obtain ⟨lead, marks, content, hcut, hsplit, htexts, hmarks⟩ :=
    splitMark_of_resumption hfront hf rest
  cases hgroup : σ.group with
  | nil =>
      rw [Leaves, hgroup] at hleaves
      cases hleaves
  | cons w older =>
      rw [Leaves, hgroup] at hleaves
      obtain ⟨t, ts, hbetween, hw⟩ := hleaves
      have hmark : t = Continuation.mark ∧ w.origin ≠ .expanded := by
        by_contra hnot
        rw [Word.Leaves, if_neg hnot] at hw
        cases hw
      rw [Word.Leaves, if_pos hmark] at hw
      have hadjacent : Continuation.isAdjacent (σ.between ++ lead) (!marks.isEmpty) = true := by
        have hhead : (σ.between ++ lead).head? = some Continuation.mark := by
          rw [hbetween, hmark.1]
          rfl
        rw [Continuation.isAdjacent, hhead]
        rcases hmarks with ⟨rfl, rfl⟩ | rfl
        · obtain rfl : lead = [] := by simpa using htexts
          obtain ⟨last, hlast⟩ : ∃ last, (t :: ts).getLast? = some last :=
            ⟨_, List.getLast?_eq_some_getLast (List.cons_ne_nil t ts)⟩
          have hend := hfeed last (by rw [hbetween]; exact hlast)
          simp [hbetween, hlast, hend]
        · simp
      refine ⟨w, ⟨?_, hmark.2, hf, ?_, ?_⟩, hw, ?_⟩
      · rw [hgroup]
        rfl
      · rw [hcut, hsplit]
      · rw [hcut, hsplit]
        exact hadjacent
      · rw [← htexts, ← List.append_assoc]
        exact Draft.touches_of_isAdjacent (hmarks.imp And.left id) hadjacent

/-- What a string goes on with does not stand apart from it, unless a token that touches the next line
leaves a string open. -/
theorem Leaves.exists_not_apart (hmacros : macros.Named) (hleaves : σ.Leaves (some q))
    (hplace : σ.place = .margin) (hfeed : ∀ t ∈ σ.between.getLast?, t.getLast? = some '\n')
    {rest : List Lexeme} (hrow : Row (front ++ f :: rest)) (hfront : Line.Resumption front)
    (hf : f.isSemantic = true)
    (hseams : ∀ p ∈ (σ.after macros (front ++ f :: rest)).seams, p.1.value.leftOpen = none) :
    ∃ w, σ.Meets (front ++ f :: rest) w f rest ∧ ¬Text.Apart w.value f.text := by
  obtain ⟨w, hmeets, hw, htouches⟩ := hleaves.exists_meets hfeed hfront hf rest
  refine ⟨w, hmeets, ?_⟩
  obtain ⟨hvisible, hgroup⟩ := group_of_resumption hfront hrow hplace
  rw [after_append] at hseams
  have hparts : σ.after macros front = σ.run (Part.ofLiminals (front.map Lexeme.text)) := by
    rw [after, partsOf_of_plain macros σ hfront.isSemantic]
  rw [hparts] at hseams
  have hbetween := between_run_ofLiminals σ (front.map Lexeme.text)
  generalize σ.run (Part.ofLiminals (front.map Lexeme.text)) = τ at hvisible hgroup hseams hbetween
  rw [after_cons] at hseams
  rcases lexemeParts_cases macros τ f with ⟨_, ws, hne, hws⟩ | ⟨_, hnone⟩
  · -- the two touch, so that the first may leave nothing open
    obtain ⟨v, ws, rfl⟩ := List.exists_cons_of_ne_nil hne
    have hseam : (w, v) ∈ (τ.addToken v).seams := by
      have hnewest := hmeets.newest
      rw [← hgroup] at hnewest
      rw [← hbetween] at htouches
      simp [addToken, htouches, hnewest]
    have hkept : (τ.addToken v).seams <+: ((τ.run (τ.lexemeParts macros f)).after macros rest).seams := by
      rw [hws]
      exact (seams_prefix_run (τ.addToken v) (ws.map .token)).trans (seams_prefix_run _ _)
    have hnone := hseams _ (hkept.subset hseam)
    rw [hw.leftOpen] at hnone
    cases hnone
  · rcases hnone hf with hhidden | hget
    · exact absurd hhidden hvisible
    · exact not_apart_of_isIdentifier hw (hmacros _ _ hget)

end Layout

end FreeForm
