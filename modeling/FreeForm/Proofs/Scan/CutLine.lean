import FreeForm.Proofs.Scan.LineRest

namespace FreeForm

/-!
# Lines cut off within a lexeme

A line that ends with a continuation mark within a lexeme scans as before up to there, and the part
in front of the mark is one lexeme. Only a dotted operator behind digits is scanned otherwise: cut
off it is a point and letters, and the point belongs to the number.
-/

open Lexeme

namespace Line

theorem scanLine_of_reads {t : Text} {ls : List Lexeme}
    (h : Reads (t ++ [continuationMark]) ls [continuationMark]) (hfeed : '\n' ∉ t) :
    scanLine none (t ++ [continuationMark] ++ ['\n']) =
      .ok ⟨ls ++ [marker, ⟨.lineEnd, ['\n']⟩], none⟩ := by
  have hscan : scan (fun _ => none) none (t ++ [continuationMark]) =
      ⟨ls ++ [marker], none, []⟩ := by
    change scanFresh _ _ = _
    rw [h.scanFresh, scanFresh_mark, scanFresh_nil]
    rfl
  have hclean : '\n' ∉ t ++ [continuationMark] := by
    simpa [continuationMark] using hfeed
  have hlast : (t ++ [continuationMark]).getLast? ≠ some '\r' := by
    rw [List.getLast?_concat]
    decide
  refine (scanLine_append_feed hclean hlast hscan).trans ?_
  simp

/-- A line is cut off behind a part of one of its lexemes. -/
theorem exists_scanLine_cut {a u v r : Text} {kind : Kind} (hkind : IsDivisible kind)
    {before : List Lexeme} (ha : concat before = a) (hfeed : '\n' ∉ a ++ u) (hu : u ≠ [])
    (hreads : Reads (a ++ (u ++ (v ++ r))) before (u ++ (v ++ r)))
    (hfirst : Piece.first? (u ++ (v ++ r)) = some ⟨⟨kind, u ++ v⟩, r, none⟩)
    (hpoint : ¬(kind = .dotOperator ∧ ∃ l ∈ before.getLast?, ∀ c ∈ l.text, c.isDigit = true)) :
    ∃ k : Kind, k.role = .semantic ∧ scanLine none (a ++ u ++ [continuationMark] ++ ['\n']) =
      .ok ⟨before ++ [⟨k, u⟩, marker, ⟨.lineEnd, ['\n']⟩], none⟩ := by
  have hstops : Stops [continuationMark] := by
    rintro c hc
    exact (Option.some.inj hc).symm
  obtain ⟨k, hcut, hrole, _⟩ := first?_front hkind hfirst hu hstops
  have hfront := hreads.front hfirst hu hpoint hstops
  rw [ha, ← List.append_assoc] at hfront
  have hscan := scanLine_of_reads (hfront.trans (.of_first? hcut (.nil _))) hfeed
  rw [List.append_assoc before] at hscan
  exact ⟨k, hrole, hscan⟩

/-- Digits take the point in front of letters that end the line. -/
theorem exists_reads_point {digits letters : Text} (hne : digits ≠ [])
    (hdigits : ∀ c ∈ digits, c.isDigit = true)
    (hletters : ∀ c ∈ letters, Unicode.isAlphabetic c = true) :
    ∃ (x : Text) (names : List Lexeme), x ≠ [] ∧ (∀ n ∈ names, n.role = .semantic) ∧
      Reads (digits ++ ('.' :: letters ++ [continuationMark]))
        (⟨.number, digits ++ x⟩ :: names) [continuationMark] := by
  have hopens : opensDotOperator ('.' :: (letters ++ [continuationMark])) = false := by
    rw [Bool.eq_false_iff]
    intro hopens
    have hstops : Stops [continuationMark] := by
      rintro c hc
      exact (Option.some.inj hc).symm
    rw [← List.cons_append] at hopens
    obtain ⟨front, back, heq, _⟩ :=
      opensDotOperator_iff.mp (opensDotOperator_of_stops hstops hopens)
    have hpoint := hletters '.' (by simp [(List.cons.inj heq).2])
    cases hpoint
  obtain ⟨more, rest, htaken⟩ := exists_number_point hdigits hopens
  have hlossless := lossless_number (digits ++ '.' :: (letters ++ [continuationMark]))
  have hwordy := of_number (digits ++ '.' :: (letters ++ [continuationMark]))
  rw [htaken] at hlossless hwordy
  have hrest : more ++ rest = letters ++ [continuationMark] := by
    simpa using hlossless
  -- the number may take a letter for an exponent, but never the mark
  obtain ⟨left, rfl, hleft⟩ : ∃ left, letters = more ++ left ∧
      rest = left ++ [continuationMark] := by
    rcases List.append_eq_append_iff.mp hrest with ⟨left, hletters', hrest'⟩ | ⟨left, hmore, hmark⟩
    · exact ⟨left, hletters', hrest'⟩
    · cases left with
      | nil => exact ⟨[], by simpa using hmore.symm, by simpa using hmark.symm⟩
      | cons c left =>
          obtain ⟨rfl, _⟩ := List.cons.inj hmark
          have hmark := hwordy continuationMark (by simp [hmore])
          cases hmark
  subst hleft
  obtain ⟨d, digits, rfl⟩ := List.exists_cons_of_ne_nil hne
  have hnumber : Piece.first? ((d :: digits ++ '.' :: more) ++ (left ++ [continuationMark])) =
      some ⟨⟨.number, d :: digits ++ '.' :: more⟩, left ++ [continuationMark], none⟩ := by
    have hline : (d :: digits ++ '.' :: more) ++ (left ++ [continuationMark]) =
        d :: digits ++ '.' :: (more ++ left ++ [continuationMark]) := by simp
    rw [hline]
    refine (first?_digit (hdigits d List.mem_cons_self) _).trans ?_
    exact congrArg some (Piece.ofKind_eq_iff.mpr ⟨rfl, htaken, rfl⟩)
  have hline : d :: digits ++ ('.' :: (more ++ left) ++ [continuationMark]) =
      (d :: digits ++ '.' :: more) ++ (left ++ [continuationMark]) := by simp
  rw [hline]
  cases left with
  | nil =>
      exact ⟨'.' :: more, [], List.cons_ne_nil _ _, List.forall_mem_nil _,
        .of_first? hnumber (.nil _)⟩
  | cons c left =>
      have hc := hletters c (by simp)
      have hname := first?_letter (t := left) hc fun d hd => hletters d (by simp [hd])
      refine ⟨'.' :: more, [⟨.name, c :: left⟩], List.cons_ne_nil _ _, ?_, ?_⟩
      · intro n hn
        rw [List.mem_singleton.mp hn]
        rfl
      · exact .of_first? hnumber (.of_first? hname (.nil _))

/-- A dotted operator behind a number of digits alone has letters between two points. -/
theorem exists_letters_of_digits {u v r : Text} {l : Lexeme}
    (hdigits : ∀ c ∈ l.text, c.isDigit = true)
    (hl : Piece.first? (l.text ++ (u ++ (v ++ r))) = some ⟨l, u ++ (v ++ r), none⟩) (hu : u ≠ [])
    (hv : v ≠ []) (hfirst : Piece.first? (u ++ (v ++ r)) = some ⟨⟨.dotOperator, u ++ v⟩, r, none⟩) :
    ∃ letters, u = '.' :: letters ∧ ∀ c ∈ letters, Unicode.isAlphabetic c = true := by
  obtain ⟨u, rfl⟩ : ∃ letters, u = '.' :: letters := by
    have hhead := head?_of_dotOperator hfirst rfl
    obtain ⟨c, u, rfl⟩ := List.exists_cons_of_ne_nil hu
    exact ⟨u, by rw [Option.some.inj hhead]⟩
  have htaken : numberPattern (l.text ++ '.' :: (u ++ (v ++ r))) =
      (l.text, '.' :: (u ++ (v ++ r))) := by
    obtain ⟨d, digits, hd⟩ := List.exists_cons_of_ne_nil (Piece.first?_text_ne_nil hl)
    dsimp only at hd
    obtain ⟨k, t⟩ := l
    subst hd
    have hnumber := (first?_digit (hdigits d List.mem_cons_self) _).symm.trans hl
    exact (Piece.ofKind_eq_iff.mp (Option.some.inj hnumber)).2.1
  obtain ⟨letters, hdotted, _, hletters⟩ :=
    exists_letters_of_opens (opensDotOperator_of_number hdigits htaken) hfirst
  have htext : u ++ v = letters ++ ['.'] := (List.cons.inj (congrArg Lexeme.text hdotted)).2
  refine ⟨u, rfl, fun c hc => hletters c ?_⟩
  obtain ⟨v, e, rfl⟩ := (List.eq_nil_or_concat v).resolve_left hv
  rw [List.concat_eq_append, ← List.append_assoc] at htext
  rw [← (List.append_inj' htext rfl).1]
  exact List.mem_append_left v hc

/-- Behind digits a line is not cut off within a dotted operator: its point becomes a part of the
number. -/
theorem exists_scanLine_point {a u v r : Text} {front : List Lexeme} {l : Lexeme}
    (ha : concat (front ++ [l]) = a) (hdigits : ∀ c ∈ l.text, c.isDigit = true)
    (hfeed : '\n' ∉ a ++ u) (hu : u ≠ []) (hv : v ≠ [])
    (hreads : Reads (a ++ (u ++ (v ++ r))) (front ++ [l]) (u ++ (v ++ r)))
    (hfirst : Piece.first? (u ++ (v ++ r)) = some ⟨⟨.dotOperator, u ++ v⟩, r, none⟩) :
    l.role = .semantic ∧ ∃ (x : Text) (names : List Lexeme), x ≠ [] ∧
      (∀ n ∈ names, n.role = .semantic) ∧
      scanLine none (a ++ u ++ [continuationMark] ++ ['\n']) =
        .ok ⟨front ++ ⟨.number, l.text ++ x⟩ :: names ++ [marker, ⟨.lineEnd, ['\n']⟩], none⟩ := by
  obtain ⟨s, hfront, hlast⟩ := hreads.exists_of_append
  obtain ⟨hl, rfl⟩ : Piece.first? (l.text ++ (u ++ (v ++ r))) = some ⟨l, u ++ (v ++ r), none⟩ ∧
      l.text ++ (u ++ (v ++ r)) = s := by
    cases hlast with
    | cons hl hnil =>
        cases hnil
        exact ⟨hl, rfl⟩
  have hne : l.text ≠ [] := Piece.first?_text_ne_nil hl
  obtain ⟨letters, rfl, hletters⟩ := exists_letters_of_digits hdigits hl hu hv hfirst
  obtain ⟨x, names, hx, hnames, hnumber⟩ := exists_reads_point hne hdigits hletters
  obtain ⟨d, digits, hd⟩ := List.exists_cons_of_ne_nil hne
  have hdigit : d.isDigit = true := hdigits d (by simp [hd])
  have hrole : l.role = .semantic := by
    rw [hd, List.cons_append] at hl
    exact role_of_first? (isWordy_of_isDigit hdigit) hl
  have hagain : Reads (concat front ++ (l.text ++ ('.' :: letters ++ [continuationMark]))) front
      (l.text ++ ('.' :: letters ++ [continuationMark])) := by
    refine hfront.again (by simp [hd]) (by simp [hd]) ?_ ?_
    · -- digits open no dotted operator
      intro _ _ _ hopens
      rw [hd, List.cons_append, opensDotOperator_iff] at hopens
      obtain ⟨_, _, hpoint, _⟩ := hopens
      rw [(List.cons.inj hpoint).1] at hdigit
      cases hdigit
    · intro z _ hopens
      refine opensDotOperator_append (opensDotOperator_of_append ?_ hopens) _
      intro c hc
      rw [hd] at hc
      obtain rfl := Option.some.inj hc
      refine ⟨Unicode.not_isAlphabetic_of_isDigit hdigit, ?_⟩
      rintro rfl
      cases hdigit
  have hline : concat front ++ (l.text ++ ('.' :: letters ++ [continuationMark])) =
      a ++ '.' :: letters ++ [continuationMark] := by
    rw [← ha]
    simp
  rw [hline] at hagain
  exact ⟨hrole, x, names, hx, hnames, scanLine_of_reads (hagain.trans hnumber) hfeed⟩

theorem scanLine_alone {w r : Text} {kind : Kind} (hkind : IsDivisible kind) (hw : w ≠ [])
    (hfirst : Piece.first? (w ++ r) = some ⟨⟨kind, w⟩, r, none⟩) :
    scanLine none (w ++ ['\n']) = .ok ⟨[⟨kind, w⟩, ⟨.lineEnd, ['\n']⟩], none⟩ := by
  have hwordy := isWordy_of_mem hkind hfirst
  have hwhole : Piece.first? (w ++ ([] ++ r)) = some ⟨⟨kind, w ++ []⟩, r, none⟩ := by
    simpa using hfirst
  have hstops : Stops [] := by
    rintro c hc
    cases hc
  obtain ⟨k, halone, _, hk⟩ := first?_front hkind hwhole hw hstops
  obtain rfl := hk rfl
  have hscan : scan (fun _ => none) none w = ⟨[⟨k, w⟩], none, []⟩ := by
    change scanFresh _ _ = _
    rw [List.append_nil] at halone
    rw [scanFresh_of_first? halone, scanFresh_nil]
    rfl
  refine scanLine_append_feed ?_ ?_ hscan
  · intro hmem
    have hfeed := hwordy '\n' hmem
    cases hfeed
  · intro hlast
    have hreturn := hwordy '\r' (List.mem_of_getLast? hlast)
    cases hreturn

end Line

end FreeForm
