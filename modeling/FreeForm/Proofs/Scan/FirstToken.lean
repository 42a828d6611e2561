import FreeForm.Proofs.Scan.QuoteAutomaton
import FreeForm.Proofs.Scan.Rows

namespace FreeForm

/-!
# The first token of a row

A continuation mark means something at the front of a row, where only liminal text precedes it. Blanks
and separators are all that can stand there, for a comment takes the rest of its line. So a line that
does not start with a mark behind blanks and separators scans into a row whose first lexeme that is
not liminal is a token.
-/

open Lexeme

/-- A row in which no continuation mark stands in front of the first token. -/
inductive Unmarked : List Lexeme → Prop
  | liminal {ls : List Lexeme} (h : ∀ l ∈ ls, l.isLiminal = true) : Unmarked ls
  | token {lead : List Lexeme} (hlead : ∀ l ∈ lead, l.isLiminal = true) {l : Lexeme}
      (hl : l.isSemantic = true) (rest : List Lexeme) : Unmarked (lead ++ l :: rest)

theorem Unmarked.append_liminal {ls : List Lexeme} (h : Unmarked ls) {e : Lexeme}
    (he : e.isLiminal = true) : Unmarked (ls ++ [e]) := by
  cases h with
  | liminal hls =>
      refine .liminal fun l hl => ?_
      rcases List.mem_append.mp hl with hl | hl
      · exact hls l hl
      · rwa [List.mem_singleton.mp hl]
  | token hlead hl rest =>
      rw [List.append_assoc, List.cons_append]
      exact .token hlead hl _

theorem Unmarked.cons {l : Lexeme} (hl : l.isContinuation = false) {ls : List Lexeme}
    (h : Unmarked ls) : Unmarked (l :: ls) := by
  have hrole : l.isLiminal = true ∨ l.isSemantic = true := by
    cases hcase : l.role <;> simp_all [isLiminal, isSemantic, isContinuation]
  rcases hrole with hliminal | hsemantic
  · cases h with
    | liminal hls => exact .liminal (List.forall_mem_cons.mpr ⟨hliminal, hls⟩)
    | token hlead hm rest => exact .token (List.forall_mem_cons.mpr ⟨hliminal, hlead⟩) hm rest
  · exact .token (List.forall_mem_nil _) hsemantic ls

theorem Unmarked.append {ls : List Lexeme} (hls : ∀ l ∈ ls, l.isContinuation = false)
    {row : List Lexeme} (h : Unmarked row) : Unmarked (ls ++ row) := by
  induction ls with
  | nil => exact h
  | cons l ls ih =>
      obtain ⟨hl, hls⟩ := List.forall_mem_cons.mp hls
      exact (ih hls).cons hl

theorem head?_dropWhile_append {α : Type} {p : α → Bool} {x : List α} {a : α}
    (h : a ∈ (x.dropWhile p).head?) (y : List α) : a ∈ ((x ++ y).dropWhile p).head? := by
  obtain ⟨rest, hrest⟩ := List.head?_eq_some_iff.mp h
  rw [List.dropWhile_append, hrest]
  rfl

namespace Line

/-- Whether the first character of a line other than blanks and separators is the continuation
mark. -/
def opensWithMark (line : Text) : Bool :=
  (line.dropWhile fun c => isBlank c || c == ';').head? == some continuationMark

theorem opensWithMark_of_append {t u : Text} (h : opensWithMark (t ++ u) = false) :
    opensWithMark t = false := by
  unfold opensWithMark at h ⊢
  rw [beq_eq_false_iff_ne] at h ⊢
  exact fun heq => h (head?_dropWhile_append heq u)

theorem opensWithMark_append {t : Text} (ht : ∀ c ∈ t, (isBlank c || c == ';') = true) (u : Text) :
    opensWithMark (t ++ u) = opensWithMark u := by
  rw [opensWithMark, List.dropWhile_append_of_pos ht, ← opensWithMark]

theorem opensWithMark_dropWhile_isBlank (t : Text) :
    opensWithMark (t.dropWhile isBlank) = opensWithMark t := by
  have hwhole : t.takeWhile isBlank ++ t.dropWhile isBlank = t := List.takeWhile_append_dropWhile
  have hblank : ∀ c ∈ t.takeWhile isBlank, (isBlank c || c == ';') = true := by
    intro c hc
    rw [List.all_eq_true.mp (List.all_takeWhile (l := t)) c hc, Bool.true_or]
  rw [← opensWithMark_append hblank, hwhole]

theorem opensWithMark_mark (t : Text) : opensWithMark (continuationMark :: t) = true := rfl

theorem not_opensWithMark {t : Text}
    (h : ∀ c ∈ (t.dropWhile isBlank).head?, c ≠ continuationMark ∧ c ≠ ';') :
    opensWithMark t = false := by
  rw [← opensWithMark_dropWhile_isBlank]
  have hhead := List.head?_dropWhile_not isBlank t
  cases hdrop : t.dropWhile isBlank with
  | nil => rfl
  | cons c rest =>
      rw [hdrop] at h hhead
      obtain ⟨hmark, hseparator⟩ := h c rfl
      have hc : isBlank c = false := hhead
      rw [opensWithMark, List.dropWhile_cons_of_neg (by simp [hc, hseparator]), List.head?_cons]
      exact beq_eq_false_iff_ne.mpr fun heq => hmark (Option.some.inj heq)

/-- What can stand in front of the first token of a line without opening it with a mark. -/
theorem unmarked_scanFresh {t : Text} (h : opensWithMark t = false) :
    Unmarked (scanFresh (fun _ => none) t).lexemes := by
  fun_induction scanFresh (fun _ => none) t with
  | case1 => exact .liminal (List.forall_mem_nil _)
  | case2 t p hfirst ih =>
      have happ := Piece.first?_append hfirst
      have hshaped := shaped_of_first? hfirst
      rw [lexemes_after, renameLexeme_none, List.singleton_append]
      have hpass : (∀ c ∈ p.lexeme.text, (isBlank c || c == ';') = true) →
          Unmarked (scanFresh (fun _ => none) p.rest).lexemes := by
        intro htext
        rw [← happ, opensWithMark_append htext] at h
        exact ih h
      unfold Shaped at hshaped
      cases hkind : p.lexeme.kind with
      | whitespace =>
          simp only [hkind] at hshaped
          have hrest := hpass fun c hc => by simp [hshaped c hc]
          exact hrest.cons (by simp [isContinuation, role, hkind, Kind.role])
      | separator =>
          simp only [hkind] at hshaped
          have hrest := hpass (by simp [hshaped])
          exact hrest.cons (by simp [isContinuation, role, hkind, Kind.role])
      | comment =>
          obtain ⟨c, rest, rfl⟩ := List.exists_cons_of_ne_nil
            (List.ne_nil_of_length_pos (Nat.zero_lt_of_lt (Piece.length_rest_lt hfirst)))
          rw [(eq_nil_of_first?_comment hfirst hkind).2, scanFresh_nil]
          exact .liminal (by simp [isLiminal, role, hkind, Kind.role])
      | continuation =>
          rw [← happ, Piece.text_of_first? hfirst hkind, List.singleton_append,
            opensWithMark_mark] at h
          cases h
      | lineEnd => simp [hkind] at hshaped
      | name | number | string | dotOperator | operator | punctuation =>
          exact .token (List.forall_mem_nil _) (by simp [isSemantic, role, hkind, Kind.role]) _

theorem text_readQuotation_ne_nil (q : Char) {c : Char} {rest : Text}
    (hmark : ¬(c = continuationMark ∧ rest.all isBlank = true)) :
    (readQuotation q (c :: rest)).text ≠ [] := by
  unfold readQuotation
  rw [if_neg hmark]
  split
  · split
    · exact List.cons_ne_nil c _
    · split <;> exact List.cons_ne_nil c _
  · exact List.cons_ne_nil c _

theorem resumption_of_unmarked {t : Text} (h : opensWithMark t = false) :
    resumption t = ([], t) := by
  rw [← opensWithMark_dropWhile_isBlank] at h
  unfold resumption
  split
  · rfl
  · rename_i c rest hdrop
    refine if_neg ?_
    rintro rfl
    rw [hdrop, opensWithMark_mark] at h
    cases h

/-- A string that is carried on without a mark starts its line with a token. -/
theorem unmarked_scanCarried {q : Char} {t : Text} (h : opensWithMark t = false) :
    Unmarked (scanCarried (fun _ => none) q t).lexemes := by
  unfold scanCarried
  split
  · exact unmarked_scanFresh h
  · rename_i hopen
    have htext : (readQuotation q t).text ≠ [] := by
      cases t with
      | nil => exact absurd rfl hopen
      | cons c rest =>
          refine text_readQuotation_ne_nil q ?_
          rintro ⟨rfl, _⟩
          rw [opensWithMark_mark] at h
          cases h
    have hkept : [(Piece.ofQuotation q (readQuotation q t)).lexeme].filter (!·.text.isEmpty) =
        [(Piece.ofQuotation q (readQuotation q t)).lexeme] := by
      simpa [Piece.ofQuotation] using htext
    rw [resumption_of_unmarked h, lexemes_after, hkept, List.nil_append]
    exact .token (List.forall_mem_nil _) rfl _

end Line

/-- A line that does not open with a mark scans into a row that does not. -/
theorem unmarked_of_scanLine {carried : Option Char} {line : Text} {s : ScannedLine}
    (h : scanLine carried line = .ok s) (hline : Line.opensWithMark line = false) :
    Unmarked s.lexemes := by
  obtain ⟨_, hlexemes⟩ := scanLine_eq_ok h
  rw [← Line.body_append_terminator line] at hline
  have hbody := Line.opensWithMark_of_append hline
  rw [hlexemes]
  refine Unmarked.append_liminal ?_ rfl
  cases carried with
  | none => exact Line.unmarked_scanFresh hbody
  | some q => exact Line.unmarked_scanCarried hbody

end FreeForm
