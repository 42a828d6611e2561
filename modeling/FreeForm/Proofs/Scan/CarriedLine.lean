import FreeForm.Proofs.Scan.FirstFault
import FreeForm.Proofs.Scan.FirstToken
import FreeForm.Proofs.Scan.LineRest

namespace FreeForm

/-!
# Lines that start inside a string

A line that starts inside a string passes the string on, breaks it off behind a mark that nothing
follows, or starts with more of its content, behind a mark or in the first column. Behind that
content it is scanned as if it started there.
-/

open Lexeme

namespace Line

/-- What stands in front of the content of a string that goes on: nothing, or a mark. -/
inductive Resumption : List Lexeme → Prop
  | direct : Resumption []
  | marked {indent : List Lexeme} (hindent : ∀ l ∈ indent, l.isWhitespace = true) :
      Resumption (indent ++ [marker])

/-- The lexemes of a line that starts inside a string, and the string that it leaves open. -/
inductive Carries (q : Char) : List Lexeme → Option Char → Prop
  /-- A blank line and a comment leave the string open. -/
  | passed {ls : List Lexeme} (hls : ∀ l ∈ ls, l.isLiminal = true) : Carries q ls (some q)
  /-- A mark that nothing follows breaks the string off. -/
  | broken {indent : List Lexeme} {e : Lexeme} (hindent : ∀ l ∈ indent, l.isWhitespace = true)
      (he : e.kind = .lineEnd) : Carries q (indent ++ [marker, e]) none
  /-- A second mark leaves it open. -/
  | again {indent behind : List Lexeme} (hindent : ∀ l ∈ indent, l.isWhitespace = true)
      (hbehind : ∀ l ∈ behind, l.isWhitespace = true) :
      Carries q (indent ++ marker :: marker :: behind) (some q)
  | content {front rest : List Lexeme} {f : Lexeme} {u : Text} {o o' : Option Char}
      (hfront : Resumption front) (hf : f.kind = .string) (hne : f.text ≠ [])
      (hcut : body u ≠ [] → Cut q f.text o)
      (hopened : o ≠ none → ∃ blanks, body u = continuationMark :: blanks)
      (hrest : scanLine none u = .ok ⟨rest, o'⟩) : Carries q (front ++ f :: rest) (o <|> o')

theorem isLiminal_of_isBlankOrComment {t : Text} (h : isBlankOrComment t = true) :
    ∀ l ∈ (scanFresh (fun _ => none) t).lexemes, l.isLiminal = true := by
  intro l hl
  cases hdrop : t.dropWhile isBlank with
  | nil =>
      have hblank : t.all isBlank = true :=
        List.all_eq_true.mpr (List.dropWhile_eq_nil_iff.mp hdrop)
      rw [scanFresh_blanks hblank] at hl
      exact isLiminal_of_mem_blanks l hl
  | cons c rest =>
      have hc : isCommentMark c = true := by simpa [isBlankOrComment, hdrop] using h
      rw [scanFresh_of_comment hdrop hc] at hl
      rcases List.mem_append.mp hl with hl | hl
      · exact isLiminal_of_mem_blanks l hl
      · obtain rfl := List.mem_singleton.mp hl
        rfl

/-- Content that goes on is empty only in front of nothing and of a trailing mark. -/
theorem readQuotation_of_text_nil {q : Char} {t : Text} (h : (readQuotation q t).text = []) :
    t = [] ∨ ∃ blanks, t = continuationMark :: blanks ∧ blanks.all isBlank = true := by
  cases t with
  | nil => exact .inl rfl
  | cons c rest =>
      by_cases hmark : c = continuationMark ∧ rest.all isBlank = true
      · exact .inr ⟨rest, by rw [hmark.1], hmark.2⟩
      · exact absurd h (text_readQuotation_ne_nil q hmark)

theorem resumption_cases {t : Text} (hopen : isBlankOrComment t = false) :
    (resumption t = ([], t) ∧ ∃ c rest, t = c :: rest ∧ c ≠ continuationMark) ∨
      ∃ indent rest, (∀ l ∈ indent, l.isWhitespace = true) ∧
        resumption t = (indent ++ [marker], rest) := by
  cases hdrop : t.dropWhile isBlank with
  | nil => simp [isBlankOrComment, hdrop] at hopen
  | cons c rest =>
      by_cases hc : c = continuationMark
      · right
        refine ⟨blanks (t.takeWhile isBlank), rest, isWhitespace_of_mem_blanks, ?_⟩
        rw [resumption, hdrop]
        dsimp only
        rw [if_pos hc, hc]
        cases htake : t.takeWhile isBlank <;> rfl
      · left
        constructor
        · rw [resumption, hdrop]
          exact if_neg hc
        · cases t with
          | nil => cases hdrop
          | cons d rest' =>
              refine ⟨d, rest', rfl, ?_⟩
              rintro rfl
              rw [List.dropWhile_cons_of_neg (by decide)] at hdrop
              exact hc (List.cons.inj hdrop).1.symm

section Read

variable {q : Char} {t x r : Text} {continued : Bool}
  (hread : readQuotation q (resumption t).2 = ⟨x, r, continued⟩)
include hread

/-- A string that nothing is added to is broken off or marked again. -/
theorem carries_of_nil (hx : x = []) (hopen : isBlankOrComment t = false) {e : Lexeme}
    (he : e.kind = .lineEnd) :
    Carries q ((resumption t).1 ++ ((scanFresh (fun _ => none) r).lexemes ++ [e]))
      ((if continued then some q else none) <|> (scanFresh (fun _ => none) r).openDelimiter) := by
  have hnone : (readQuotation q (resumption t).2).text = [] := by rw [hread, hx]
  rcases resumption_cases hopen with
    ⟨hresumption, c, rest, rfl, hc⟩ | ⟨indent, rest, hindent, hresumption⟩
  · rw [hresumption] at hnone
    exact absurd hnone (text_readQuotation_ne_nil q fun hmark => hc hmark.1)
  · rw [hresumption] at hread hnone ⊢
    rcases readQuotation_of_text_nil hnone with hrest | ⟨trailing, hrest, htrailing⟩
    · obtain rfl : rest = [] := hrest
      cases hread
      rw [scanFresh_nil, List.append_assoc]
      exact .broken hindent he
    · obtain rfl : rest = continuationMark :: trailing := hrest
      dsimp only at hread
      rw [readQuotation_mark htrailing] at hread
      cases hread
      rw [scanFresh_mark, scanFresh_blanks htrailing]
      have hbehind : ∀ l ∈ blanks trailing ++ [e], l.isWhitespace = true := by
        intro l hl
        rcases List.mem_append.mp hl with hl | hl
        · exact isWhitespace_of_mem_blanks l hl
        · obtain rfl := List.mem_singleton.mp hl
          simp [Lexeme.isWhitespace, Lexeme.role, he, Kind.role]
      simpa [Scan.after] using Carries.again hindent hbehind

/-- A string that goes on is followed by the rest of its line. -/
theorem carries_of_content (hx : x ≠ []) (hopen : isBlankOrComment t = false)
    {rest : List Lexeme} {o : Option Char} {u : Text} (hu : body u = r)
    (hrest : scanLine none u = .ok ⟨rest, o⟩) :
    Carries q ((resumption t).1 ++ ⟨.string, x⟩ :: rest) ((if continued then some q else none) <|> o) := by
  have hfront : Resumption (resumption t).1 := by
    rcases resumption_cases hopen with ⟨hresumption, _⟩ | ⟨indent, _, hindent, hresumption⟩
    · rw [hresumption]
      exact .direct
    · rw [hresumption]
      exact .marked hindent
  refine .content hfront rfl hx ?_ ?_ hrest
  · intro hne
    rw [hu] at hne
    cases continued with
    | true =>
        obtain ⟨o', hcut, hclosed⟩ := exists_cut_of_readQuotation hread
        obtain rfl := hclosed rfl
        exact hcut
    | false =>
        obtain ⟨w, hw, rfl, _⟩ := behind_of_readQuotation hread hne
        exact .behind hw
  · intro hcontinued
    have hmark : continued = true := by
      cases continued
      · exact absurd rfl hcontinued
      · rfl
    have hbehind := readQuotation_rest_of_continued ((congrArg Quotation.continued hread).trans hmark)
    rw [hread] at hbehind
    obtain ⟨trailing, htrailing, _⟩ := hbehind
    exact ⟨trailing, hu.trans htrailing⟩

end Read

end Line

/-- Every line that scans from inside a string goes on in one of these ways. -/
theorem carries_of_scanLine {q : Char} {line : Text} {ls : List Lexeme} {o : Option Char}
    (h : scanLine (some q) line = .ok ⟨ls, o⟩) : Line.Carries q ls o := by
  obtain ⟨hrest, hlexemes⟩ := scanLine_eq_ok h
  obtain ⟨_, ho⟩ := openDelimiter_of_scanLine h
  dsimp only at hlexemes ho
  rw [hlexemes, ho]
  clear hlexemes ho h
  cases hopen : Line.isBlankOrComment (Line.body line) with
  | true =>
      simp only [Line.scan, Line.scanCarried, hopen, if_true]
      refine .passed fun l hl => ?_
      rcases List.mem_append.mp hl with hl | hl
      · exact Line.isLiminal_of_isBlankOrComment hopen l hl
      · obtain rfl := List.mem_singleton.mp hl
        rfl
  | false =>
      generalize hread : readQuotation q (Line.resumption (Line.body line)).2 = read
      obtain ⟨x, r, continued⟩ := read
      have hscan : Line.scan (fun _ => none) (some q) (Line.body line) =
          (Line.scanFresh (fun _ => none) r).after
            ((Line.resumption (Line.body line)).1 ++ [⟨.string, x⟩].filter (!·.text.isEmpty))
            (if continued then some q else none) := by
        simp [Line.scan, Line.scanCarried, hopen, hread, Line.Piece.ofQuotation]
      rw [hscan] at hrest ⊢
      by_cases hx : x = []
      · have hcarries := Line.carries_of_nil hread hx hopen
          (e := ⟨.lineEnd, Line.terminator line⟩) rfl
        subst hx
        simpa [Line.Scan.after] using hcarries
      · have hspelled := readQuotation_append q (Line.resumption (Line.body line)).2
        rw [hread] at hspelled
        generalize hfront : concat (Line.resumption (Line.body line)).1 ++ x = front
        have hbody : Line.body line = front ++ r := by
          rw [← hfront, List.append_assoc, hspelled, Line.resumption_append]
        have hline : front ++ (r ++ Line.terminator line) = line := by
          rw [← List.append_assoc, ← hbody, Line.body_append_terminator]
        obtain ⟨hu, hend⟩ := Line.body_of_append ((congrArg Line.body hline).trans hbody)
        rw [hline] at hend
        have hscanRest : scanLine none (r ++ Line.terminator line) =
            .ok ⟨(Line.scanFresh (fun _ => none) r).lexemes ++ [⟨.lineEnd, Line.terminator line⟩],
              (Line.scanFresh (fun _ => none) r).openDelimiter⟩ := by
          have hleft : (Line.scanFresh (fun _ => none) r).rest = [] := hrest
          rw [Line.scanLine_none_eq_ok, hu, ← hend]
          refine ⟨_, ?_, rfl⟩
          rw [← hleft]
        have hcarries := Line.carries_of_content hread hx hopen hu hscanRest
        simpa [Line.Scan.after, hx] using hcarries

/-- Unless it has no token, a line that starts inside a string goes on with it. -/
theorem Line.Carries.exists_content {q : Char} {ls : List Lexeme} {o : Option Char}
    (h : Carries q ls o) (hls : ¬∀ l ∈ ls, l.isSemantic = false) :
    ∃ front f rest u o₁ o₂, ls = front ++ f :: rest ∧ o = (o₁ <|> o₂) ∧ Resumption front ∧
      f.kind = .string ∧ (body u ≠ [] → Cut q f.text o₁) ∧
      (o₁ ≠ none → ∃ blanks, body u = continuationMark :: blanks) ∧
      scanLine none u = .ok ⟨rest, o₂⟩ := by
  have hliminal : ∀ l : Lexeme, l.isWhitespace = true → l.isSemantic = false := by
    intro l hl
    have hrole : l.role = .whitespace := by simpa [Lexeme.isWhitespace] using hl
    simp [Lexeme.isSemantic, hrole]
  cases h with
  | passed hls' =>
      refine absurd (fun l hl => ?_) hls
      simp [Lexeme.isSemantic_eq, hls' l hl]
  | @broken indent e hindent he =>
      refine absurd (fun l hl => ?_) hls
      simp only [List.mem_append, List.mem_cons, List.not_mem_nil, or_false] at hl
      rcases hl with hl | rfl | rfl
      · exact hliminal l (hindent l hl)
      · rfl
      · simp [Lexeme.isSemantic, Lexeme.role, he, Kind.role]
  | again hindent hbehind =>
      refine absurd (fun l hl => ?_) hls
      simp only [List.mem_append, List.mem_cons] at hl
      rcases hl with hl | rfl | rfl | hl
      · exact hliminal l (hindent l hl)
      · rfl
      · rfl
      · exact hliminal l (hbehind l hl)
  | content hfront hf _ hcut hopened hrest =>
      exact ⟨_, _, _, _, _, _, rfl, rfl, hfront, hf, hcut, hopened, hrest⟩

end FreeForm
