import FreeForm.Scanner

namespace FreeForm

/-!
# Scanning loses no text

The lexemes of a text and what scanning stopped in front of make up the text, wherever the text
starts: outside a string, inside one, behind the mark that resumes one. A line that scans is
therefore the concatenation of its lexemes, its line end included. A continuation lexeme is the mark
alone, so that whoever leaves it out can put it back.
-/

namespace Line

@[simp] theorem renameLexeme_none (l : Lexeme) : renameLexeme (fun _ => none) l = l := by
  unfold renameLexeme
  split <;> rfl

theorem scanFresh_append (t : Text) :
    Lexeme.concat (scanFresh (fun _ => none) t).lexemes ++
      (scanFresh (fun _ => none) t).rest = t := by
  fun_induction scanFresh (fun _ => none) t with
  | case1 t h => rfl
  | case2 t p h ih =>
      have hfirst := Piece.first?_append h
      simp only [Scan.after, renameLexeme_none, Lexeme.concat_append, Lexeme.concat_cons,
        Lexeme.concat_nil, List.append_nil, List.append_assoc, ih]
      exact hfirst

/-- Lexemes without text can be left out. -/
theorem concat_filter_nonempty (ls : List Lexeme) :
    Lexeme.concat (ls.filter (!·.text.isEmpty)) = Lexeme.concat ls := by
  induction ls with
  | nil => rfl
  | cons l ls ih =>
      cases ht : l.text with
      | nil => simp [ht, ih]
      | cons c cs => simp [ht, ih]

theorem resumption_append (t : Text) :
    Lexeme.concat (resumption t).1 ++ (resumption t).2 = t := by
  have ht := List.takeWhile_append_dropWhile (p := isBlank) (l := t)
  unfold resumption
  split
  · rfl
  · rename_i c rest hdrop
    split
    · rw [concat_filter_nonempty]
      simpa [hdrop] using ht
    · rfl

theorem scanCarried_append (delimiter : Char) (t : Text) :
    Lexeme.concat (scanCarried (fun _ => none) delimiter t).lexemes ++
      (scanCarried (fun _ => none) delimiter t).rest = t := by
  unfold scanCarried
  split
  · exact scanFresh_append t
  · have hq := Lexeme.readQuotation_append delimiter (resumption t).2
    simp only [Scan.after, Piece.ofQuotation, Lexeme.concat_append, concat_filter_nonempty,
      Lexeme.concat_cons, Lexeme.concat_nil, List.append_nil, List.append_assoc,
      scanFresh_append]
    rw [hq, resumption_append]

theorem scan_append (carried : Option Char) (t : Text) :
    Lexeme.concat (scan (fun _ => none) carried t).lexemes ++
      (scan (fun _ => none) carried t).rest = t := by
  cases carried with
  | none => exact scanFresh_append t
  | some delimiter => exact scanCarried_append delimiter t

theorem punctuationKind_eq_continuation {c : Char} (h : punctuationKind c = .continuation) :
    c = Lexeme.continuationMark := by
  unfold punctuationKind at h
  split at h
  · assumption
  · split at h <;> cases h

theorem Piece.text_of_ofPunctuation {c : Char} {rest : Text}
    (h : (ofPunctuation c rest).lexeme.kind = .continuation) :
    (ofPunctuation c rest).lexeme.text = [Lexeme.continuationMark] := by
  cases rest with
  | nil =>
      have hc := punctuationKind_eq_continuation h
      simp [ofPunctuation, ofKind, hc]
  | cons d rest =>
      by_cases hp : [c, d] ∈ pairs
      · simp [ofPunctuation, ofKind, hp] at h
      · have hc : c = Lexeme.continuationMark :=
          punctuationKind_eq_continuation (by simpa [ofPunctuation, ofKind, hp] using h)
        subst hc
        simp [ofPunctuation, ofKind, hp]

theorem Piece.text_of_first? {t : Text} {p : Piece} (h : first? t = some p)
    (hk : p.lexeme.kind = .continuation) : p.lexeme.text = [Lexeme.continuationMark] := by
  cases t with
  | nil => simp [first?] at h
  | cons c rest =>
      simp only [first?, ofCons?] at h
      repeat' split at h
      all_goals simp only [Option.some.injEq, reduceCtorEq] at h
      all_goals subst h
      -- of the eight ways to start a lexeme only punctuation gives a continuation
      iterate 7
        · cases hk
      · exact text_of_ofPunctuation hk

theorem mem_scanFresh {t : Text} {l : Lexeme} (h : l ∈ (scanFresh (fun _ => none) t).lexemes) :
    ∃ u p, Piece.first? u = some p ∧ l = p.lexeme := by
  fun_induction scanFresh (fun _ => none) t with
  | case1 t hfirst => simp at h
  | case2 t p hfirst ih =>
      simp only [lexemes_after, renameLexeme_none, List.singleton_append, List.mem_cons] at h
      rcases h with rfl | h
      · exact ⟨t, p, hfirst, rfl⟩
      · exact ih h

theorem mem_resumption {t : Text} {l : Lexeme} (h : l ∈ (resumption t).1) :
    l = ⟨.whitespace, t.takeWhile isBlank⟩ ∨ l = ⟨.continuation, [Lexeme.continuationMark]⟩ := by
  unfold resumption at h
  split at h
  · simp at h
  · split at h
    · rename_i hmark
      rcases List.mem_cons.mp (List.mem_filter.mp h).1 with rfl | hmem
      · exact Or.inl rfl
      · rw [List.mem_singleton.mp hmem, hmark]
        exact Or.inr rfl
    · simp at h

/-- Where the lexemes of a line come from: the front of some text, or the front of the line when it
starts inside a string. -/
theorem mem_scan_cases {carried : Option Char} {t : Text} {l : Lexeme}
    (h : l ∈ (scan (fun _ => none) carried t).lexemes) :
    (∃ u p, Piece.first? u = some p ∧ l = p.lexeme) ∨ l = ⟨.whitespace, t.takeWhile isBlank⟩ ∨
      l = ⟨.continuation, [Lexeme.continuationMark]⟩ ∨ l.kind = .string := by
  cases carried with
  | none => exact Or.inl (mem_scanFresh h)
  | some delimiter =>
      simp only [scan, scanCarried] at h
      split at h
      · exact Or.inl (mem_scanFresh h)
      · simp only [lexemes_after, List.mem_append] at h
        rcases h with (h | h) | h
        · rcases mem_resumption h with h | h
          · exact Or.inr (Or.inl h)
          · exact Or.inr (Or.inr (Or.inl h))
        · rw [List.mem_singleton.mp (List.mem_filter.mp h).1]
          exact Or.inr (Or.inr (Or.inr rfl))
        · exact Or.inl (mem_scanFresh h)

theorem text_of_mem_scan {carried : Option Char} {t : Text} {l : Lexeme}
    (h : l ∈ (scan (fun _ => none) carried t).lexemes) (hk : l.kind = .continuation) :
    l.text = [Lexeme.continuationMark] := by
  rcases mem_scan_cases h with ⟨u, p, hfirst, rfl⟩ | rfl | rfl | hstring
  · exact Piece.text_of_first? hfirst hk
  · cases hk
  · rfl
  · rw [hstring] at hk
    cases hk

end Line

theorem scanLine_eq_ok {carried : Option Char} {line : Text} {s : ScannedLine}
    (h : scanLine carried line = .ok s) :
    (Line.scan (fun _ => none) carried (Line.body line)).rest = [] ∧
      s.lexemes = (Line.scan (fun _ => none) carried (Line.body line)).lexemes ++
        [⟨.lineEnd, Line.terminator line⟩] := by
  unfold scanLine scanLineWith ScannedLine.ofScan at h
  split at h
  · rename_i hrest
    cases h
    exact ⟨hrest, rfl⟩
  · cases h

theorem concat_lexemes_scanLine {carried : Option Char} {line : Text} {s : ScannedLine}
    (h : scanLine carried line = .ok s) : Lexeme.concat s.lexemes = line := by
  obtain ⟨hrest, hlexemes⟩ := scanLine_eq_ok h
  have hscan := Line.scan_append carried (Line.body line)
  rw [hrest, List.append_nil] at hscan
  simp [hlexemes, hscan]

theorem text_of_mem_scanLine {carried : Option Char} {line : Text} {s : ScannedLine} {l : Lexeme}
    (h : scanLine carried line = .ok s) (hl : l ∈ s.lexemes) (hk : l.kind = .continuation) :
    l.text = [Lexeme.continuationMark] := by
  obtain ⟨_, hlexemes⟩ := scanLine_eq_ok h
  rw [hlexemes] at hl
  rcases List.mem_append.mp hl with hl | hl
  · exact Line.text_of_mem_scan hl hk
  · rw [List.mem_singleton.mp hl] at hk
    cases hk

namespace Scanner

theorem scan_eq_ok {s s' : Scanner} {line : Text} {lexemes : List Lexeme}
    (h : s.scan line = (.ok lexemes, s')) :
    ∃ opened, scanLine s.openDelimiter line = .ok ⟨lexemes, opened⟩ := by
  unfold scan at h
  split at h
  · rename_i scanned hscanned
    cases h
    exact ⟨scanned.openDelimiter, hscanned⟩
  · cases h

theorem concat_of_scan {s s' : Scanner} {line : Text} {lexemes : List Lexeme}
    (h : s.scan line = (.ok lexemes, s')) : Lexeme.concat lexemes = line := by
  obtain ⟨opened, hscan⟩ := scan_eq_ok h
  exact concat_lexemes_scanLine hscan

theorem text_of_mem_scan {s s' : Scanner} {line : Text} {lexemes : List Lexeme} {l : Lexeme}
    (h : s.scan line = (.ok lexemes, s')) (hl : l ∈ lexemes) (hk : l.kind = .continuation) :
    l.text = [Lexeme.continuationMark] := by
  obtain ⟨opened, hscan⟩ := scan_eq_ok h
  exact text_of_mem_scanLine hscan hl hk

end Scanner

end FreeForm
