import FreeForm.Continuation
import FreeForm.Proofs.Scan.QuoteAutomaton

namespace FreeForm

/-!
# Strings left open

In front of a continuation mark a token leaves a string open or none, and the quotes of its text tell
which. A token that is joined from two halves leaves open what its second half does, for behind a
half that is closed the automaton goes on as from the start.
-/

open Lexeme

namespace QuoteState

/-- Outside of strings and comments, be it behind a delimiter. -/
inductive IsOutside : QuoteState → Prop
  | outside : IsOutside outside
  | atDelimiter {q : Char} (hq : q = '\'' ∨ q = '"') : IsOutside (atDelimiter q)

theorem IsOutside.step {σ : QuoteState} (h : σ.IsOutside) (c : Char) : σ.step c = enter c := by
  cases h with
  | outside => rfl
  | @atDelimiter q hq =>
      by_cases hc : c = q
      · subst hc
        have henter : enter c = inside c := by rcases hq with rfl | rfl <;> rfl
        rw [henter]
        exact if_pos rfl
      · exact if_neg hc

/-- Behind what is closed a text is read as from the start. -/
theorem IsOutside.foldl {σ : QuoteState} (h : σ.IsOutside) {t : Text} (ht : t ≠ []) :
    t.foldl QuoteState.step σ = t.foldl QuoteState.step .outside := by
  obtain ⟨c, t, rfl⟩ := List.exists_cons_of_ne_nil ht
  rw [List.foldl_cons, List.foldl_cons, h.step, IsOutside.outside.step]

theorem IsOutside.delimiter?_eq_none {σ : QuoteState} (h : σ.IsOutside) : σ.delimiter? = none := by
  cases h <;> rfl

theorem foldl_outside {t : Text} (ht : ∀ c ∈ t, enter c = outside) :
    t.foldl step outside = outside := by
  induction t with
  | nil => rfl
  | cons c t ih =>
      obtain ⟨hc, ht⟩ := List.forall_mem_cons.mp ht
      rw [List.foldl_cons, IsOutside.outside.step, hc, ih ht]

theorem foldl_commented (t : Text) : t.foldl step commented = commented := by
  induction t with
  | nil => rfl
  | cons c t ih => exact ih

theorem foldl_within {q : Char} {t : Text} (h : Within q t) :
    t.foldl step (inside q) = inside q := by
  induction h with
  | nil => rfl
  | plain hc _ ih =>
      rw [List.foldl_cons, step, if_neg hc]
      exact ih
  | doubled _ ih =>
      rw [List.foldl_cons, List.foldl_cons, step, if_pos rfl, step, if_pos rfl]
      exact ih

theorem foldl_quote {q : Char} (hq : q = '\'' ∨ q = '"') (t : Text) :
    (q :: t).foldl step outside = t.foldl step (inside q) := by
  have henter : enter q = inside q := by rcases hq with rfl | rfl <;> rfl
  rw [List.foldl_cons, IsOutside.outside.step, henter]

end QuoteState

/-- The delimiter of the string that the quotes of a text leave open. -/
def Text.leftOpen (t : Text) : Option Char :=
  (t.foldl QuoteState.step .outside).delimiter?

namespace Line

/-- What the value of a token leaves open: nothing, or the string that it is. -/
inductive Leaves (v : Text) : Option Char → Prop
  | nothing (h : (v.foldl QuoteState.step .outside).IsOutside) : Leaves v none
  | string {q : Char} {w : Text} (hq : q = '\'' ∨ q = '"') (hv : v = q :: w) (hw : Within q w) :
      Leaves v (some q)

theorem Leaves.leftOpen {v : Text} {o : Option Char} (h : Leaves v o) : v.leftOpen = o := by
  cases h with
  | nothing h => exact h.delimiter?_eq_none
  | string hq hv hw =>
      subst hv
      rw [Text.leftOpen, QuoteState.foldl_quote hq, QuoteState.foldl_within hw]
      rfl

theorem Leaves.unique {v : Text} {o o' : Option Char} (h : Leaves v o) (h' : Leaves v o') :
    o = o' :=
  h.leftOpen.symm.trans h'.leftOpen

theorem leaves_of_cut {q : Char} (hq : q = '\'' ∨ q = '"') {t : Text} {o : Option Char}
    (h : Cut q t o) : Leaves (q :: t) o := by
  cases h with
  | within h => exact .string hq rfl h
  | behind h =>
      refine .nothing ?_
      rw [QuoteState.foldl_quote hq, List.foldl_append, QuoteState.foldl_within h, List.foldl_cons,
        List.foldl_nil, QuoteState.step, if_pos rfl]
      exact .atDelimiter hq

theorem leaves_of_not_string {t : Text} {p : Piece} (h : Piece.first? t = some p)
    (hstring : p.lexeme.kind ≠ .string) (hcomment : p.lexeme.kind ≠ .comment) :
    Leaves p.lexeme.text none := by
  refine .nothing ?_
  rw [QuoteState.foldl_outside (enter_of_mem h hstring hcomment)]
  exact .outside

/-- In front of a mark a token leaves open what its quotes do. -/
theorem leaves_of_first? {l : Lexeme} {h : Text} {o : Option Char}
    (hfirst : Piece.first? (l.text ++ continuationMark :: h) =
      some ⟨l, continuationMark :: h, o⟩) (hl : l.kind ≠ .comment) : Leaves l.text o := by
  by_cases hstring : l.kind = .string
  · obtain ⟨q, t, hq, rfl, hread, ho⟩ := exists_of_first?_string hfirst hstring
    cases o with
    | none =>
        obtain ⟨w, hw, rfl, _⟩ := behind_of_readQuotation hread (List.cons_ne_nil _ h)
        exact leaves_of_cut hq (.behind hw)
    | some q' =>
        obtain ⟨o, hcut, hopen⟩ := exists_cut_of_readQuotation hread
        obtain rfl := hopen rfl
        obtain rfl := Option.some.inj (ho rfl)
        exact leaves_of_cut hq hcut
  · cases o with
    | none => exact leaves_of_not_string hfirst hstring hl
    | some q => exact absurd (opened_of_first? hfirst (Option.some_ne_none q)).1 hstring

/-- A token that is all of a text leaves something open. -/
theorem exists_leaves_of_alone {l : Lexeme} {o : Option Char}
    (hfirst : Piece.first? l.text = some ⟨l, [], o⟩) (hl : l.kind ≠ .comment) :
    ∃ o', Leaves l.text o' := by
  by_cases hstring : l.kind = .string
  · have hwhole : Piece.first? (l.text ++ []) = some ⟨l, [], o⟩ := by rwa [List.append_nil]
    obtain ⟨q, t, hq, rfl, hread, _⟩ := exists_of_first?_string hwhole hstring
    obtain ⟨o', hcut, _⟩ := exists_cut_of_readQuotation hread
    exact ⟨o', leaves_of_cut hq hcut⟩
  · exact ⟨none, leaves_of_not_string hfirst hstring hl⟩

theorem Leaves.ne_commented {v : Text} {o : Option Char} (h : Leaves v o) :
    v.foldl QuoteState.step .outside ≠ .commented := by
  intro hcommented
  cases h with
  | nothing h =>
      rw [hcommented] at h
      cases h
  | string hq hv hw =>
      rw [hv, QuoteState.foldl_quote hq, QuoteState.foldl_within hw] at hcommented
      cases hcommented

/-- A carriage return behind a token closes no string. -/
theorem Leaves.leftOpen_return {v : Text} {o : Option Char} (h : Leaves v o) :
    (v ++ ['\r']).leftOpen = o := by
  rw [Text.leftOpen, List.foldl_append]
  cases h with
  | nothing h =>
      rw [h.foldl (List.cons_ne_nil _ _)]
      rfl
  | @string q w hq hv hw =>
      have hreturn : '\r' ≠ q := by rcases hq with rfl | rfl <;> decide
      rw [hv, QuoteState.foldl_quote hq, QuoteState.foldl_within hw, List.foldl_cons,
        List.foldl_nil, QuoteState.step, if_neg hreturn]
      rfl

/-- What a line feed behind a text makes the line of it: a carriage return at its end goes. -/
theorem exists_of_scanLine_feed {t : Text} {m e : Lexeme} {o : Option Char}
    (h : scanLine none (t ++ ['\n']) = .ok ⟨[m, e], o⟩) :
    (∃ opened, Piece.first? m.text = some ⟨m, [], opened⟩) ∧
      (t = m.text ∨ t = m.text ++ ['\r']) := by
  obtain ⟨hscan, htext, _⟩ := scanFresh_of_scanLine_pair h
  rw [← htext] at hscan
  obtain ⟨r, opened, _, hwhole, hfirst, _⟩ := exists_of_scanFresh_cons hscan
  obtain rfl : r = [] := by simpa using hwhole
  rw [List.append_nil] at hfirst
  refine ⟨⟨opened, hfirst⟩, ?_⟩
  have hfeed := text_of_scanLine_feed h
  split at hfeed
  · rename_i hreturn
    obtain ⟨front, rfl⟩ := List.getLast?_eq_some_iff.mp hreturn
    exact .inr (by rw [hfeed, List.dropLast_concat])
  · exact .inl hfeed.symm

section Joined

variable {v f : Text} {l e : Lexeme} {om o : Option Char}
  (hjoined : scanLine none (v ++ f ++ ['\n']) = .ok ⟨[l, e], om⟩)
include hjoined

/-- Halves that are joined leave open what a token does whose quotes lead where theirs do. -/
theorem leaves_of_joined {t : Text} (hleaves : Leaves t o)
    (hquotes : (v ++ f).foldl QuoteState.step .outside = t.foldl QuoteState.step .outside) :
    Leaves l.text o := by
  obtain ⟨⟨_, hfirst⟩, htext⟩ := exists_of_scanLine_feed hjoined
  have hnot : l.kind ≠ .comment := by
    -- a comment would start where the halves do
    intro hcomment
    apply hleaves.ne_commented
    obtain ⟨d, rest, hcons⟩ := List.exists_cons_of_ne_nil (Piece.first?_text_ne_nil hfirst)
    dsimp only at hcons
    rw [hcons] at hfirst htext
    obtain ⟨hd, _⟩ := eq_nil_of_first?_comment hfirst hcomment
    have hcommented : ∀ u : Text, (d :: u).foldl QuoteState.step .outside = .commented := by
      intro u
      rw [List.foldl_cons, QuoteState.IsOutside.outside.step, enter_of_isCommentMark hd,
        QuoteState.foldl_commented]
    rw [← hquotes]
    rcases htext with htext | htext <;> rw [htext]
    · exact hcommented rest
    · exact hcommented (rest ++ ['\r'])
  obtain ⟨o', hopen⟩ := exists_leaves_of_alone hfirst hnot
  have heq : o' = o := by
    rw [← hleaves.leftOpen, Text.leftOpen, ← hquotes]
    rcases htext with htext | htext <;> rw [htext]
    · exact hopen.leftOpen.symm
    · exact hopen.leftOpen_return.symm
  rwa [heq] at hopen

/-- What is closed goes on as its second half starts. -/
theorem leaves_of_fresh (hv : Leaves v none) (hf : f ≠ []) (hopen : Leaves f o) :
    Leaves l.text o := by
  refine leaves_of_joined hjoined hopen ?_
  cases hv with
  | nothing h => rw [List.foldl_append, h.foldl hf]

/-- A string that is carried over a line break is left open behind it as its second half is. -/
theorem leaves_of_carried {q : Char} (hv : Leaves v (some q)) (hf : Cut q f o) :
    Leaves l.text o := by
  cases hv with
  | string hq hv hw =>
      refine leaves_of_joined hjoined (leaves_of_cut hq hf) ?_
      rw [List.foldl_append, hv, QuoteState.foldl_quote hq, QuoteState.foldl_within hw,
        QuoteState.foldl_quote hq]

end Joined

/-- A line is scanned from one of its lexemes on as if it started there, and what the lexemes in front
leave open only strings do. -/
theorem exists_scanLine_of_append {t : Text} {front ls : List Lexeme} {o : Option Char}
    (h : scanLine none t = .ok ⟨front ++ ls, o⟩) (hls : ls ≠ []) :
    ∃ u o₁ o₂, t = concat front ++ u ∧ scanLine none u = .ok ⟨ls, o₂⟩ ∧ o = (o₁ <|> o₂) ∧
      ((∀ l ∈ front, l.isSemantic = false) → o₁ = none) := by
  induction front generalizing t o with
  | nil => exact ⟨t, none, o, rfl, h, rfl, fun _ => rfl⟩
  | cons l front ih =>
      obtain ⟨u, opened, o', rfl, hstarts, hu, rfl⟩ :=
        exists_starts_of_scanLine h (List.append_ne_nil_of_right_ne_nil front hls)
      obtain ⟨v, o₁, o₂, rfl, hv, rfl, hnone⟩ := ih hu
      refine ⟨v, opened <|> o₁, o₂, ?_, hv, ?_, fun hfront => ?_⟩
      · rw [concat_cons, List.append_assoc]
      · cases opened <;> rfl
      · obtain ⟨hl, hfront⟩ := List.forall_mem_cons.mp hfront
        obtain rfl : opened = none := by
          by_contra hopen
          have hkind := (opened_of_first? hstarts.first hopen).1
          dsimp only at hkind
          simp [Lexeme.isSemantic, Lexeme.role, hkind, Kind.role] at hl
        exact hnone hfront

end Line

end FreeForm
