import FreeForm.Proofs.Draft.Layout
import FreeForm.Proofs.Scan.Faults
import FreeForm.Proofs.Scan.LineRest

namespace FreeForm

/-!
# Rows of lexemes

A physical line scans into a row: its line end comes last and nowhere else, and each lexeme that is
not semantic has a text that tells what it is.
-/

theorem mem_splitAfter {α : Type} [DecidableEq α] {separator : α} {l piece : List α}
    (h : piece ∈ splitAfter separator l) :
    ∃ front, separator ∉ front ∧ (piece = front ∨ piece = front ++ [separator]) := by
  fun_induction splitAfter separator l generalizing piece with
  | case1 => cases h
  | case2 rest ih =>
      rcases List.mem_cons.mp h with rfl | h
      · exact ⟨[], List.not_mem_nil, Or.inr rfl⟩
      · exact ih h
  | case3 a rest hne hrest ih =>
      obtain rfl := List.mem_singleton.mp h
      exact ⟨[a], by simpa using Ne.symm hne, Or.inl rfl⟩
  | case4 a rest hne first others hrest ih =>
      rcases List.mem_cons.mp h with rfl | h
      · have hmem : first ∈ splitAfter separator rest := hrest ▸ List.mem_cons_self
        obtain ⟨front, hfront, hfirst⟩ := ih hmem
        refine ⟨a :: front, by simp [hfront, Ne.symm hne], ?_⟩
        rcases hfirst with rfl | rfl
        · exact Or.inl rfl
        · exact Or.inr rfl
      · exact ih (by simp [hrest, h])

/-- The content of a physical line holds no line feed. -/
theorem Line.feed_not_mem_body {t line : Text} (h : line ∈ t.lines) : '\n' ∉ body line := by
  obtain ⟨front, hfront, rfl | rfl⟩ := mem_splitAfter h
  · exact fun hmem => hfront ((prefix_body _).subset hmem)
  · exact fun hmem => hfront ((prefix_body_feed _).subset hmem)

namespace Line

/-- What the text of a lexeme is that stands between tokens. -/
def Shaped (l : Lexeme) : Prop :=
  match l.kind with
  | .lineEnd => False
  | .whitespace => ∀ c ∈ l.text, isBlank c = true
  | .comment => ∃ c rest, l.text = c :: rest ∧ isCommentMark c = true
  | .separator => l.text = [';']
  | _ => True

theorem shaped_ofPunctuation (c : Char) (rest : Text) :
    Shaped (Piece.ofPunctuation c rest).lexeme := by
  have hsingle : ∀ u, Shaped (Piece.ofKind (punctuationKind c) ([c], u)).lexeme := by
    intro u
    unfold punctuationKind Piece.ofKind
    split
    · exact True.intro
    · split
      · rename_i hc
        exact congrArg (fun d => [d]) hc
      · exact True.intro
  cases rest with
  | nil => exact hsingle []
  | cons d rest =>
      by_cases hpair : [c, d] ∈ pairs
      · rw [Piece.ofPunctuation, if_pos hpair]
        exact True.intro
      · rw [Piece.ofPunctuation, if_neg hpair]
        exact hsingle _

theorem shaped_of_first? {t : Text} {p : Piece} (h : Piece.first? t = some p) :
    Shaped p.lexeme := by
  cases t with
  | nil => simp [Piece.first?] at h
  | cons c rest =>
      simp only [Piece.first?, Piece.ofCons?] at h
      repeat' split at h
      all_goals simp only [Option.some.injEq, reduceCtorEq] at h
      all_goals subst h
      · exact fun d hd => List.all_eq_true.mp (List.all_takeWhile (l := c :: rest)) d hd
      · exact True.intro
      · exact True.intro
      · exact True.intro
      · exact ⟨c, rest, rfl, ‹_›⟩
      · exact True.intro
      · exact True.intro
      · exact shaped_ofPunctuation c rest

theorem shaped_of_mem_scan {carried : Option Char} {t : Text} {l : Lexeme}
    (h : l ∈ (scan (fun _ => none) carried t).lexemes) : Shaped l := by
  rcases mem_scan_cases h with ⟨u, p, hfirst, rfl⟩ | rfl | rfl | hstring
  · exact shaped_of_first? hfirst
  · exact fun d hd => List.all_eq_true.mp (List.all_takeWhile (l := t)) d hd
  · exact True.intro
  · unfold Shaped
    rw [hstring]
    exact True.intro

theorem text_ne_nil_of_mem_scan {carried : Option Char} {t : Text} {l : Lexeme}
    (h : l ∈ (scan (fun _ => none) carried t).lexemes) : l.text ≠ [] := by
  have hfresh : ∀ {u : Text}, l ∈ (scanFresh (fun _ => none) u).lexemes → l.text ≠ [] := by
    intro u hu
    obtain ⟨_, p, hfirst, rfl⟩ := mem_scanFresh hu
    exact Piece.first?_text_ne_nil hfirst
  have hfilter : ∀ {ls : List Lexeme}, l ∈ ls.filter (!·.text.isEmpty) → l.text ≠ [] := by
    intro ls hl
    simpa using (List.mem_filter.mp hl).2
  cases carried with
  | none => exact hfresh h
  | some delimiter =>
      simp only [scan, scanCarried] at h
      split at h
      · exact hfresh h
      · simp only [Scan.after, List.mem_append] at h
        rcases h with (h | h) | h
        · unfold resumption at h
          split at h
          · cases h
          · split at h
            · exact hfilter h
            · cases h
        · exact hfilter h
        · exact hfresh h

end Line

/-- A text that is not empty and holds no line feed ends no line. -/
theorem Liminal.ofText_eq {t : Text} (hne : t ≠ []) (hfeed : '\n' ∉ t) :
    ofText t =
      if t = Continuation.mark then .mark
      else if t = [';'] then .separator
      else
        match t.dropWhile isBlank with
        | [] => .blank
        | c :: _ =>
            if c = Lexeme.directiveMark then .directive
            else if isIdentifierStart c then .name
            else .comment := by
  have hopen : ¬(t = [] ∨ t.getLast? = some '\n') := by
    rintro (h | h)
    · exact hne h
    · exact hfeed (List.mem_of_getLast? h)
  unfold ofText
  exact if_neg hopen

theorem Lexeme.told_of_shaped {l : Lexeme} (hshaped : Line.Shaped l)
    (hmark : l.kind = .continuation → l.text = [Lexeme.continuationMark]) (hne : l.text ≠ [])
    (hfeed : '\n' ∉ l.text) : l.Told := by
  have htext := Liminal.ofText_eq hne hfeed
  unfold Line.Shaped at hshaped
  unfold Told
  cases hkind : l.kind with
  | lineEnd => simp [hkind] at hshaped
  | whitespace =>
      simp only [hkind] at hshaped
      have hdrop : l.text.dropWhile isBlank = [] := List.dropWhile_eq_nil_iff.mpr hshaped
      have hnot : ∀ c, isBlank c = false → l.text ≠ [c] := by
        intro c hc heq
        rw [heq] at hshaped
        have hblank := hshaped c List.mem_cons_self
        rw [hc] at hblank
        cases hblank
      have hmark' : l.text ≠ Continuation.mark := hnot _ (by decide)
      dsimp only
      rw [htext, if_neg hmark', if_neg (hnot ';' (by decide)), hdrop]
  | comment =>
      simp only [hkind] at hshaped
      obtain ⟨c, rest, hcons, hc⟩ := hshaped
      have hcases : c = '!' ∨ c = Lexeme.directiveMark := Line.isCommentMark_iff.mp hc
      have hdrop : l.text.dropWhile isBlank = c :: rest := by
        rw [hcons]
        rcases hcases with rfl | rfl <;> rfl
      have hnot : ∀ d, c ≠ d → l.text ≠ [d] := by
        intro d hd heq
        rw [hcons] at heq
        exact hd (List.cons.inj heq).1
      have hdirective : l.isDirective = (c == Lexeme.directiveMark) := by
        simp [isDirective, hkind, hcons]
      dsimp only
      rcases hcases with rfl | rfl
      all_goals
        have hmark' : l.text ≠ Continuation.mark := hnot _ (by decide)
        rw [htext, if_neg hmark', if_neg (hnot ';' (by decide)), hdrop, hdirective]
        rfl
  | continuation =>
      dsimp only
      rw [hmark hkind]
      decide
  | separator =>
      simp only [hkind] at hshaped
      dsimp only
      rw [hshaped]
      decide
  | name | number | string | dotOperator | operator | punctuation =>
      dsimp only
      rw [htext]
      repeat' split
      all_goals decide

theorem Row.of_append {front : List Lexeme} {e : Lexeme}
    (hfront : ∀ l ∈ front, l.kind ≠ .lineEnd ∧ l.Told) (he : e.kind = .lineEnd) (htold : e.Told) :
    Row (front ++ [e]) := by
  induction front with
  | nil => exact .last he htold
  | cons l front ih =>
      obtain ⟨⟨hl, hltold⟩, hfront⟩ := List.forall_mem_cons.mp hfront
      exact .cons hl hltold (ih hfront)

/-- A physical line scans into a row. -/
theorem Scanner.row_of_scan {s s' : Scanner} {t line : Text} (hline : line ∈ t.lines)
    {ls : List Lexeme} (h : s.scan line = (.ok ls, s')) : Row ls := by
  obtain ⟨opened, hscan⟩ := scan_eq_ok h
  obtain ⟨hrest, hlexemes⟩ := scanLine_eq_ok hscan
  have happ := Line.scan_append s.openDelimiter (Line.body line)
  rw [hrest, List.append_nil] at happ
  have hfeed := Line.feed_not_mem_body hline
  dsimp only at hlexemes
  rw [hlexemes]
  refine .of_append (fun l hl => ?_) rfl ?_
  · have hshaped := Line.shaped_of_mem_scan hl
    have hltold : l.Told := by
      refine Lexeme.told_of_shaped hshaped (Line.text_of_mem_scan hl)
        (Line.text_ne_nil_of_mem_scan hl) fun hmem => hfeed ?_
      rw [← happ]
      exact List.mem_flatMap.mpr ⟨l, hl, hmem⟩
    refine ⟨fun hkind => ?_, hltold⟩
    simp [Line.Shaped, hkind] at hshaped
  · have hend : Liminal.ofText (Line.terminator line) = .lineEnd := by
      rcases Line.terminator_cases line with hterm | hterm | hterm <;> rw [hterm] <;> rfl
    exact hend

end FreeForm
