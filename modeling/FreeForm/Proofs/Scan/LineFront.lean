import FreeForm.Proofs.Scan.BeforeBlank
import FreeForm.Proofs.Scan.PlainFront
import FreeForm.Proofs.Scan.Rows

namespace FreeForm

/-!
# The first lexeme of a line

What a line starts with is read again where the line goes on in another way, as long as it goes on
alike up to a text that ends tokens. Liminal text asks for less: blanks must not grow, and a comment
takes all of the line.
-/

open Lexeme

namespace Line

/-- Lines that are alike, or go on alike up to a text that ends tokens and does not start with a
mark. -/
inductive Agree (u v : Text) : Prop
  | same (h : u = v)
  | upTo {x t r r' : Text} (ht : t ≠ []) (hends : EndsTokens t)
      (hmark : (x ++ t).head? ≠ some continuationMark) (hu : body u = x ++ (t ++ r))
      (hv : body v = x ++ (t ++ r'))

/-- What stands in front of two lines that agree stands in front of both. -/
theorem Agree.append {u v : Text} (h : Agree u v) {x : Text}
    (hmark : x.head? ≠ some continuationMark) (hne : x ≠ []) : Agree (x ++ u) (x ++ v) := by
  cases h with
  | same h => exact .same (by rw [h])
  | @upTo y t r r' ht hends _ hu hv =>
      have hbody : ∀ {w s : Text}, body w = y ++ (t ++ s) → body (x ++ w) = x ++ y ++ (t ++ s) := by
        intro w s hw
        rw [body_append_of_ne_nil (by simp [hw, ht]), hw, List.append_assoc]
      refine .upTo ht hends ?_ (hbody hu) (hbody hv)
      rwa [List.append_assoc, List.head?_append_of_ne_nil _ hne]

theorem opensDotOperator_upTo {x t r r' : Text} (ht : t ≠ []) (hends : EndsTokens t)
    (h : opensDotOperator (x ++ (t ++ r)) = true) : opensDotOperator (x ++ (t ++ r')) = true := by
  have hends' : EndsTokens (t ++ r) := by
    intro c hc
    rw [List.head?_append_of_ne_nil t ht] at hc
    exact hends c hc
  exact opensDotOperator_append (hends'.opensDotOperator h) _

/-- A line that agrees with another starts as that does. -/
theorem Starts.agree {l : Lexeme} {u v : Text} {o : Option Char} (h : Starts l u o)
    (huv : Agree u v) : Starts l v o := by
  cases huv with
  | same huv => exact huv ▸ h
  | @upTo x t r r' ht hends hmark hu hv =>
      have hhead : ∀ s : Text, (x ++ (t ++ s)).head? = (x ++ t).head? := by
        intro s
        rw [← List.append_assoc]
        exact List.head?_append_of_ne_nil _ (by simp [ht])
      obtain rfl : o = none := by
        by_contra hopen
        obtain ⟨_, blanks, hrest, _⟩ := opened_of_first? h.first hopen
        dsimp only at hrest
        rw [hu] at hrest
        exact hmark (by rw [← hhead r, hrest]; rfl)
      have hfirst := h.first
      rw [hu] at hfirst
      refine ⟨body_append_of_ne_nil (by simp [hv, ht]) _, ?_⟩
      rw [hv]
      refine first?_again hfirst (by simp [ht]) ((hhead r').trans (hhead r).symm) ?_ ?_
      · exact fun _ hopens => opensDotOperator_upTo ht hends hopens
      · intro z _ hopens
        rw [← List.append_assoc] at hopens ⊢
        exact opensDotOperator_upTo ht hends hopens

/-- Liminal text is read again in front of another line, but for a comment, which has none, and for
blanks in front of blanks. -/
theorem Starts.liminal {l : Lexeme} {u v : Text} {o : Option Char} (h : Starts l u o)
    (hl : l.isSemantic = false) (hu : body u ≠ []) (hv : body v ≠ [])
    (hblank : l.kind = .whitespace → ∀ c ∈ (body v).head?, isBlank c = false) :
    Starts l v none := by
  refine ⟨body_append_of_ne_nil hv _, ?_⟩
  have hshaped := shaped_of_first? h.first
  have hne := Piece.first?_text_ne_nil h.first
  dsimp only [Shaped] at hshaped hne
  obtain ⟨k, t⟩ := l
  cases k with
  | lineEnd => exact hshaped.elim
  | whitespace =>
      exact first?_blanks hne (List.all_eq_true.mpr hshaped) (hblank rfl)
  | comment =>
      obtain ⟨c, rest, rfl, _⟩ := hshaped
      exact absurd (eq_nil_of_first?_comment h.first rfl).2 hu
  | continuation =>
      obtain rfl : t = [continuationMark] := Piece.text_of_first? h.first rfl
      exact first?_mark _
  | separator =>
      obtain rfl : t = [';'] := hshaped
      exact first?_separator _
  | _ => cases hl

/-- Liminal text ends tokens, and only a mark starts with one. -/
theorem endsTokens_of_first? {t : Text} {p : Piece} (h : Piece.first? t = some p)
    (hp : p.lexeme.isSemantic = false) :
    EndsTokens p.lexeme.text ∧
      (p.lexeme.text ≠ [continuationMark] → p.lexeme.text.head? ≠ some continuationMark) := by
  have hshaped := shaped_of_first? h
  have hne := Piece.first?_text_ne_nil h
  have hmark := Piece.text_of_first? h
  generalize p.lexeme = l at *
  obtain ⟨k, t⟩ := l
  cases k with
  | lineEnd => exact hshaped.elim
  | whitespace =>
      have hblank : ∀ c ∈ t.head?, isBlank c = true :=
        fun c hc => hshaped c (List.mem_of_head? hc)
      refine ⟨StartsBlank.endsTokens hblank, fun _ hhead => ?_⟩
      cases hblank _ hhead
  | comment =>
      obtain ⟨c, rest, rfl, hc⟩ := hshaped
      refine ⟨?_, fun _ hhead => ?_⟩
      · intro d hd
        obtain rfl := Option.some.inj hd
        rcases isCommentMark_iff.mp hc with rfl | rfl <;> decide
      · rw [Option.some.inj hhead] at hc
        cases hc
  | continuation =>
      obtain rfl : t = [continuationMark] := hmark rfl
      refine ⟨?_, fun hnot => absurd rfl hnot⟩
      intro d hd
      obtain rfl := Option.some.inj hd
      decide
  | separator =>
      obtain rfl : t = [';'] := hshaped
      refine ⟨?_, fun _ hhead => by cases hhead⟩
      intro d hd
      obtain rfl := Option.some.inj hd
      decide
  | _ => cases hp

/-- White space goes as far as the blanks do. -/
theorem head_of_first?_whitespace {t r : Text} {o : Option Char}
    (h : Piece.first? (t ++ r) = some ⟨⟨.whitespace, t⟩, r, o⟩) :
    ∀ c ∈ r.head?, isBlank c = false := by
  have hblank : ∀ c ∈ t, isBlank c = true := shaped_of_first? h
  obtain ⟨c, t, rfl⟩ := List.exists_cons_of_ne_nil (Piece.first?_text_ne_nil h)
  have hc := hblank c List.mem_cons_self
  simp only [List.cons_append, Piece.first?, Piece.ofCons?, hc, if_true, Option.some.injEq] at h
  obtain ⟨_, htaken, _⟩ := Piece.ofKind_eq_iff.mp h
  rw [← List.cons_append] at htaken
  exact (Pattern.many_eq_iff.mp htaken).2

/-- A token starts with no blank and no mark. -/
theorem head_of_first? {c : Char} {t : Text} {p : Piece} (h : Piece.first? (c :: t) = some p)
    (hp : p.lexeme.isSemantic = true) : isBlank c = false ∧ c ≠ continuationMark := by
  constructor
  · rw [Bool.eq_false_iff]
    intro hc
    simp only [Piece.first?, Piece.ofCons?, hc, if_true] at h
    cases h
    cases hp
  · rintro rfl
    rw [first?_mark] at h
    cases h
    cases hp

end Line

end FreeForm
