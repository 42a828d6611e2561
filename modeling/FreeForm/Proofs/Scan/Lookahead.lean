import FreeForm.Lexeme.Literal

namespace FreeForm

/-!
# How far a pattern looks ahead

What a pattern takes depends on no more than the next character, but for the decimal point of a
number, which may open a dotted operator. So it is taken again in front of any text that starts with
the same character, and any front of it is taken in front of a continuation mark.
-/

open Lexeme

theorem Unicode.not_isAlphabetic_of_isDigit {c : Char} (h : c.isDigit = true) :
    isAlphabetic c = false := by
  have hrange : 48 ≤ c.toNat ∧ c.toNat ≤ 57 := by
    simp only [Char.isDigit, ge_iff_le, Bool.and_eq_true, decide_eq_true_eq] at h
    exact h
  have hall : ∀ n : Fin 10, isAlphabetic (Char.ofNat (48 + n)) = false := by decide
  have hc : Char.ofNat (48 + (c.toNat - 48)) = c := by
    rw [Nat.add_sub_cancel' hrange.1, Char.ofNat_toNat]
  have hdigit := hall ⟨c.toNat - 48, by omega⟩
  rw [hc] at hdigit
  exact hdigit

/-- Whether a text ends every lexeme in front of it: it is empty or starts with a continuation
mark. -/
def Stops (s : Text) : Prop :=
  ∀ c ∈ s.head?, c = continuationMark

/-- Whether a text ends at its front whatever another one ends there. -/
def Replaces (s r : Text) : Prop :=
  s.head? = r.head? ∨ Stops s

theorem Replaces.append {s r : Text} (h : Replaces s r) (t : Text) :
    Replaces (t ++ s) (t ++ r) := by
  cases t with
  | nil => exact h
  | cons c t => exact .inl rfl

namespace Pattern

theorem many_eq_iff {p : Char → Bool} {t r : Text} :
    many p (t ++ r) = (t, r) ↔ (∀ c ∈ t, p c = true) ∧ ∀ c ∈ r.head?, p c = false := by
  constructor
  · intro h
    obtain ⟨htaken, hleft⟩ := Prod.mk.inj h
    constructor
    · intro c hc
      rw [← htaken] at hc
      exact List.all_eq_true.mp List.all_takeWhile c hc
    · intro c hc
      have hnot := List.head?_dropWhile_not p (t ++ r)
      rw [hleft, hc] at hnot
      exact hnot
  · rintro ⟨ht, hr⟩
    unfold many
    rw [List.takeWhile_append_of_pos ht, List.dropWhile_append_of_pos ht]
    cases r with
    | nil => simp
    | cons c r =>
        have hc : p c = false := hr c rfl
        simp [hc]

/-- What a sequence takes, its first part takes in front of its second one. -/
theorem seq_cases {f g : Pattern} (hf : Lossless f) (hg : Lossless g) {t r : Text}
    (h : seq f g (t ++ r) = (t, r)) :
    ∃ x y, t = x ++ y ∧ f (x ++ (y ++ r)) = (x, y ++ r) ∧ g (y ++ r) = (y, r) := by
  obtain ⟨htaken, hleft⟩ := Prod.mk.inj h
  have hrest := hg (f (t ++ r)).2
  rw [hleft] at hrest
  have hwhole := hf (t ++ r)
  rw [← hrest] at hwhole
  refine ⟨(f (t ++ r)).1, (g (f (t ++ r)).2).1, htaken.symm, ?_, ?_⟩
  · rw [hwhole]
    exact Prod.ext rfl hrest.symm
  · rw [hrest]
    exact Prod.ext rfl hleft

theorem seq_eq {f g : Pattern} {x y r : Text} (hf : f (x ++ (y ++ r)) = (x, y ++ r))
    (hg : g (y ++ r) = (y, r)) : seq f g (x ++ y ++ r) = (x ++ y, r) := by
  rw [List.append_assoc, seq, hf, hg]

theorem seq_eq_left {f g : Pattern} {x r : Text} (hf : f (x ++ r) = (x, r))
    (hg : g r = ([], r)) : seq f g (x ++ r) = (x, r) := by
  rw [seq, hf, hg, List.append_nil]

/-- Whether what a pattern takes of a text depends on the next character alone: it is taken where
the same character stands behind it, and any front of it is taken where the text stops there. -/
def Local (f : Pattern) : Prop :=
  ∀ u v r s, f (u ++ (v ++ r)) = (u ++ v, r) → (v = [] ∧ s.head? = r.head?) ∨ Stops s →
    f (u ++ s) = (u, s)

theorem Local.again {f : Pattern} (hf : Local f) {t r s : Text} (h : f (t ++ r) = (t, r))
    (hs : Replaces s r) : f (t ++ s) = (t, s) := by
  apply hf t [] r s
  · rw [List.nil_append, List.append_nil]
    exact h
  · exact hs.imp_left fun hhead => ⟨rfl, hhead⟩

theorem Local.again_nil {f : Pattern} (hf : Local f) {r s : Text} (h : f r = ([], r))
    (hs : Replaces s r) : f s = ([], s) :=
  hf.again (t := []) h hs

theorem local_nothing : Local nothing := by
  intro u v r s h _
  have hnil : u ++ v = [] := (congrArg Prod.fst h).symm
  obtain ⟨rfl, _⟩ := List.append_eq_nil_iff.mp hnil
  rfl

theorem local_many {p : Char → Bool} (hp : p continuationMark = false) : Local (many p) := by
  intro u v r s h hs
  rw [← List.append_assoc] at h
  obtain ⟨htaken, hleft⟩ := many_eq_iff.mp h
  refine many_eq_iff.mpr ⟨fun c hc => htaken c (List.mem_append_left v hc), ?_⟩
  intro c hc
  rcases hs with ⟨_, hhead⟩ | hstop
  · exact hleft c (hhead ▸ hc)
  · rw [hstop c hc, hp]

theorem Local.lead {f : Pattern} (hf : Local f) {p : Char → Bool}
    (hp : p continuationMark = false) : Local (lead p f) := by
  intro u v r s h hs
  cases u with
  | nil =>
      cases s with
      | nil => rfl
      | cons c s =>
          have hc : p c = false := by
            rcases hs with ⟨rfl, hhead⟩ | hstop
            · cases r with
              | nil => cases hhead
              | cons d r =>
                  obtain rfl : c = d := Option.some.inj hhead
                  cases hcase : p c with
                  | false => rfl
                  | true => simp [Pattern.lead, hcase] at h
            · rw [hstop c rfl, hp]
          simp [Pattern.lead, hc]
  | cons c u =>
      by_cases hc : p c = true
      · simp only [List.cons_append, Pattern.lead, if_pos hc, Prod.mk.injEq,
          List.cons.injEq, true_and] at h
        have hrest := hf u v r s (Prod.ext h.1 h.2) hs
        simp [Pattern.lead, hc, hrest]
      · simp [Pattern.lead, hc] at h

section Seq

variable {f g : Pattern} (hf : Lossless f) (hg : Lossless g)
include hf hg

/-- A sequence takes again what its parts take again. -/
theorem seq_again {t r s : Text} (h : seq f g (t ++ r) = (t, r))
    (hfirst : ∀ x y, t = x ++ y → f (x ++ (y ++ r)) = (x, y ++ r) → g (y ++ r) = (y, r) →
      f (x ++ (y ++ s)) = (x, y ++ s))
    (hsecond : ∀ y, g (y ++ r) = (y, r) → g (y ++ s) = (y, s)) :
    seq f g (t ++ s) = (t, s) := by
  obtain ⟨x, y, rfl, hx, hy⟩ := seq_cases hf hg h
  exact seq_eq (hfirst x y rfl hx hy) (hsecond y hy)

/-- A front of what a sequence takes ends within its first part or behind it. -/
theorem seq_front {u v r s : Text} (h : seq f g (u ++ (v ++ r)) = (u ++ v, r))
    (hwithin : ∀ x y z, f (x ++ (y ++ z)) = (x ++ y, z) → f (x ++ s) = (x, s))
    (hbehind : ∀ x y z, f (x ++ (y ++ (z ++ r))) = (x, y ++ (z ++ r)) →
      g (y ++ (z ++ r)) = (y ++ z, r) → f (x ++ (y ++ s)) = (x, y ++ s))
    (hsecond : ∀ y z, g (y ++ (z ++ r)) = (y ++ z, r) → g (y ++ s) = (y, s)) :
    seq f g (u ++ s) = (u, s) := by
  rw [← List.append_assoc] at h
  obtain ⟨x, y, hxy, hx, hy⟩ := seq_cases hf hg h
  rcases List.append_eq_append_iff.mp hxy with ⟨x', rfl, rfl⟩ | ⟨u', rfl, rfl⟩
  · rw [List.append_assoc] at hx
    exact seq_eq_left (hwithin u x' (y ++ r) hx) (hsecond [] y hy)
  · rw [List.append_assoc] at hx hy
    exact seq_eq (hbehind x u' v hx hy) (hsecond u' v hy)

theorem Local.seq (hlocal : Local f) (hlocal' : Local g) : Local (seq f g) := by
  intro u v r s h hs
  rcases hs with ⟨rfl, hsame⟩ | hstop
  · rw [List.nil_append, List.append_nil] at h
    refine seq_again hf hg h ?_ ?_
    · intro x y _ hx _
      exact hlocal.again hx (Replaces.append (.inl hsame) y)
    · intro y hy
      exact hlocal'.again hy (.inl hsame)
  · refine seq_front hf hg h ?_ ?_ ?_
    · intro x y z hx
      exact hlocal x y z s hx (.inr hstop)
    · intro x y z hx _
      exact hlocal.again hx (Replaces.append (.inr hstop) y)
    · intro y z hy
      exact hlocal' y z r s hy (.inr hstop)

end Seq

end Pattern

namespace Lexeme

open Pattern

theorem local_name : namePattern.Local := local_many (by decide)

theorem local_digits : digitsPattern.Local := local_many (by decide)

theorem local_kind : kindPattern.Local := by
  intro u v r s h hs
  cases u with
  | cons c u =>
      have hhead : ∀ t, kindPattern (c :: t) =
          if Unicode.isAlphabetic c then namePattern (c :: t) else digitsPattern (c :: t) :=
        fun t => rfl
      rw [List.cons_append, hhead] at h ⊢
      by_cases hc : Unicode.isAlphabetic c = true
      · rw [if_pos hc] at h ⊢
        exact local_name (c :: u) v r s h hs
      · rw [if_neg hc] at h ⊢
        exact local_digits (c :: u) v r s h hs
  | nil =>
      rw [List.nil_append]
      rcases hs with ⟨rfl, hhead⟩ | hstop
      · rw [List.nil_append, List.nil_append, kindPattern] at h
        rw [kindPattern, hhead]
        by_cases hr : r.head?.any Unicode.isAlphabetic = true
        · rw [if_pos hr] at h ⊢
          exact local_name.again_nil h (.inl hhead)
        · rw [if_neg hr] at h ⊢
          exact local_digits.again_nil h (.inl hhead)
      · have hname : namePattern s = ([], s) := local_name.again_nil (r := []) rfl (.inr hstop)
        have hdigits : digitsPattern s = ([], s) :=
          local_digits.again_nil (r := []) rfl (.inr hstop)
        rw [kindPattern, hname, hdigits, ite_self]

theorem lossless_sign : Pattern.Lossless (.seq (.lead isSign .nothing) digitsPattern) :=
  lossless_nothing.lead.seq (lossless_many _)

theorem local_numberTail : numberTailPattern.Local := by
  have hsign : Pattern.Local (.seq (.lead isSign .nothing) digitsPattern) :=
    Local.seq lossless_nothing.lead (lossless_many _) (local_nothing.lead (by decide)) local_digits
  exact Local.seq lossless_sign.lead lossless_kind.lead (hsign.lead (by decide))
    (local_kind.lead (by decide))

theorem local_pointNumber : pointNumberPattern.Local :=
  Local.seq (lossless_many _).lead lossless_numberTail (local_digits.lead (by decide))
    local_numberTail

theorem local_dotOperator : dotOperatorPattern.Local := by
  have hletters : Pattern.Local (.many Unicode.isAlphabetic) := local_many (by decide)
  have htail : operatorTailPattern.Local :=
    Local.seq (lossless_many _) lossless_nothing.lead hletters (local_nothing.lead (by decide))
  exact htail.lead (by decide)

theorem opensDotOperator_iff {t : Text} : opensDotOperator t = true ↔
    ∃ letters rest, t = '.' :: (letters ++ '.' :: rest) ∧ letters ≠ [] ∧
      ∀ c ∈ letters, Unicode.isAlphabetic c = true := by
  constructor
  · intro h
    unfold opensDotOperator at h
    split at h
    · rename_i rest
      simp only [Bool.and_eq_true, Bool.not_eq_true', beq_iff_eq] at h
      obtain ⟨hletters, hpoint⟩ := h
      obtain ⟨behind, hbehind⟩ := List.head?_eq_some_iff.mp hpoint
      refine ⟨rest.takeWhile Unicode.isAlphabetic, behind, ?_, ?_, ?_⟩
      · rw [← hbehind, List.takeWhile_append_dropWhile]
      · simpa using hletters
      · exact List.all_eq_true.mp List.all_takeWhile
    · cases h
  · rintro ⟨letters, rest, rfl, hne, hletters⟩
    have htaken : (letters ++ '.' :: rest).takeWhile Unicode.isAlphabetic = letters := by
      rw [List.takeWhile_append_of_pos hletters, List.takeWhile_cons_of_neg (by decide),
        List.append_nil]
    have hleft : (letters ++ '.' :: rest).dropWhile Unicode.isAlphabetic = '.' :: rest := by
      rw [List.dropWhile_append_of_pos hletters, List.dropWhile_cons_of_neg (by decide)]
    simp [opensDotOperator, htaken, hleft, hne]

theorem opensDotOperator_append {t : Text} (h : opensDotOperator t = true) (s : Text) :
    opensDotOperator (t ++ s) = true := by
  obtain ⟨letters, rest, rfl, hne, hletters⟩ := opensDotOperator_iff.mp h
  exact opensDotOperator_iff.mpr ⟨letters, rest ++ s, by simp, hne, hletters⟩

/-- In front of a character that is neither a letter nor a point, a text opens a dotted operator by
itself or not at all. -/
theorem opensDotOperator_of_append {t s : Text}
    (hs : ∀ c ∈ s.head?, Unicode.isAlphabetic c = false ∧ c ≠ '.')
    (h : opensDotOperator (t ++ s) = true) : opensDotOperator t = true := by
  obtain ⟨letters, rest, heq, hne, hletters⟩ := opensDotOperator_iff.mp h
  cases t with
  | nil =>
      rw [List.nil_append] at heq
      rw [heq] at hs
      exact absurd rfl (hs '.' rfl).2
  | cons d t =>
      obtain ⟨rfl, hrest⟩ := List.cons.inj heq
      rcases List.append_eq_append_iff.mp hrest with ⟨more, rfl, rfl⟩ | ⟨more, rfl, hmore⟩
      · exfalso
        cases more with
        | nil => exact (hs '.' rfl).2 rfl
        | cons c more =>
            have hc := hletters c (List.mem_append_right t List.mem_cons_self)
            rw [(hs c rfl).1] at hc
            cases hc
      · cases more with
        | nil =>
            rw [List.nil_append] at hmore
            rw [← hmore] at hs
            exact absurd rfl (hs '.' rfl).2
        | cons c more =>
            obtain ⟨rfl, _⟩ := List.cons.inj hmore
            exact opensDotOperator_iff.mpr ⟨letters, more, rfl, hne, hletters⟩

theorem opensDotOperator_of_stops {t s : Text} (hs : Stops s)
    (h : opensDotOperator (t ++ s) = true) : opensDotOperator t = true := by
  apply opensDotOperator_of_append _ h
  intro c hc
  rw [hs c hc]
  decide

theorem not_opensDotOperator_of_stops {s : Text} (hs : Stops s) : opensDotOperator s = false := by
  rw [Bool.eq_false_iff]
  intro h
  have hnil : opensDotOperator [] = true := opensDotOperator_of_stops (t := []) hs h
  cases hnil

theorem local_lead_digits : Pattern.Local (.lead (· == '.') digitsPattern) :=
  local_digits.lead (by decide)

theorem fraction_again {t r s : Text} (h : fractionPattern (t ++ r) = (t, r)) (hs : Replaces s r)
    (hopens : t = [] → opensDotOperator r = true → opensDotOperator s = true ∨ Stops s)
    (hopened : t ≠ [] → opensDotOperator (t ++ s) = true → opensDotOperator (t ++ r) = true) :
    fractionPattern (t ++ s) = (t, s) := by
  by_cases hr : opensDotOperator (t ++ r) = true
  · rw [fractionPattern, if_pos hr] at h
    obtain rfl : t = [] := (congrArg Prod.fst h).symm
    rw [List.nil_append] at hr ⊢
    rcases hopens rfl hr with hs | hstop
    · rw [fractionPattern, if_pos hs]
      rfl
    · rw [fractionPattern, if_neg (by simp [not_opensDotOperator_of_stops hstop])]
      exact local_lead_digits.again_nil (r := []) rfl (.inr hstop)
  · rw [fractionPattern, if_neg hr] at h
    by_cases ht : opensDotOperator (t ++ s) = true
    · have hnil : t = [] := Decidable.byContradiction fun hne => hr (hopened hne ht)
      subst hnil
      rw [fractionPattern, if_pos ht]
      rfl
    · rw [fractionPattern, if_neg ht]
      exact local_lead_digits.again h hs

theorem fraction_front {u v r s : Text} (h : fractionPattern (u ++ (v ++ r)) = (u ++ v, r))
    (hs : Stops s) : fractionPattern (u ++ s) = (u, s) := by
  by_cases hr : opensDotOperator (u ++ (v ++ r)) = true
  · have hnil : u ++ v = [] := by
      rw [fractionPattern, if_pos hr] at h
      exact (congrArg Prod.fst h).symm
    obtain ⟨rfl, rfl⟩ := List.append_eq_nil_iff.mp hnil
    exact fraction_again h (.inr hs) (fun _ _ => .inr hs) fun hne => absurd rfl hne
  · have hu : ¬opensDotOperator (u ++ s) = true := fun ht =>
      hr (opensDotOperator_append (opensDotOperator_of_stops hs ht) _)
    rw [fractionPattern, if_neg hr] at h
    rw [fractionPattern, if_neg hu]
    exact local_lead_digits u v r s h (.inr hs)

theorem numberTail_point (t : Text) : numberTailPattern ('.' :: t) = ([], '.' :: t) :=
  rfl

theorem eq_nil_of_numberTail {t r : Text} (h : numberTailPattern (t ++ r) = (t, r))
    (hopens : opensDotOperator (t ++ r) = true) : t = [] := by
  obtain ⟨letters, rest, hpoint, _⟩ := opensDotOperator_iff.mp hopens
  rw [hpoint, numberTail_point] at h
  exact (congrArg Prod.fst h).symm

/-- What follows the digits of a number: its fraction and what follows that. -/
def numberRestPattern : Pattern :=
  .seq fractionPattern numberTailPattern

theorem lossless_numberRest : numberRestPattern.Lossless :=
  lossless_fraction.seq lossless_numberTail

theorem numberRest_again {t r s : Text} (h : numberRestPattern (t ++ r) = (t, r))
    (hs : Replaces s r)
    (hopens : t = [] → opensDotOperator r = true → opensDotOperator s = true ∨ Stops s)
    (hopened : ∀ z ≠ [], opensDotOperator (z ++ s) = true → opensDotOperator (z ++ r) = true) :
    numberRestPattern (t ++ s) = (t, s) := by
  refine seq_again lossless_fraction lossless_numberTail h ?_ ?_
  · intro x y hxy hx hy
    refine fraction_again hx (hs.append y) ?_ ?_
    · rintro rfl hr
      obtain rfl := eq_nil_of_numberTail hy hr
      exact hopens hxy hr
    · intro hne ht
      rw [← List.append_assoc] at ht ⊢
      exact hopened (x ++ y) (List.append_ne_nil_of_left_ne_nil hne y) ht
  · intro y hy
    exact local_numberTail.again hy hs

theorem numberRest_front {u v r s : Text} (h : numberRestPattern (u ++ (v ++ r)) = (u ++ v, r))
    (hs : Stops s) : numberRestPattern (u ++ s) = (u, s) := by
  refine seq_front lossless_fraction lossless_numberTail h ?_ ?_ ?_
  · intro x y z hx
    exact fraction_front hx hs
  · intro x y z hx hy
    refine fraction_again hx (Replaces.append (.inr hs) y) ?_ ?_
    · rintro rfl hr
      rw [← List.append_assoc] at hr hy
      obtain ⟨rfl, _⟩ := List.append_eq_nil_iff.mp (eq_nil_of_numberTail hy hr)
      exact .inr hs
    · intro _ ht
      rw [← List.append_assoc] at ht ⊢
      exact opensDotOperator_append (opensDotOperator_of_stops hs ht) _
  · intro y z hy
    exact local_numberTail y z r s hy (.inr hs)

/-- A number is read again in front of the same character, unless dotted operators are opened
otherwise. -/
theorem number_again {t r s : Text} (h : numberPattern (t ++ r) = (t, r)) (hs : s.head? = r.head?)
    (hopens : (∀ c ∈ t, c.isDigit = true) → opensDotOperator r = true → opensDotOperator s = true)
    (hopened : ∀ z ≠ [], opensDotOperator (z ++ s) = true → opensDotOperator (z ++ r) = true) :
    numberPattern (t ++ s) = (t, s) := by
  have hreplaces : Replaces s r := .inl hs
  obtain ⟨x, y, rfl, hx, hy⟩ := seq_cases (lossless_many _) lossless_numberRest h
  refine seq_eq (local_digits.again hx (hreplaces.append y))
    (numberRest_again hy hreplaces ?_ hopened)
  rintro rfl hr
  rw [List.append_nil] at hopens
  exact .inl (hopens (many_eq_iff.mp hx).1 hr)

theorem number_front {u v r s : Text} (h : numberPattern (u ++ (v ++ r)) = (u ++ v, r))
    (hs : Stops s) : numberPattern (u ++ s) = (u, s) := by
  refine seq_front (lossless_many _) lossless_numberRest h ?_ ?_ ?_
  · intro x y z hx
    exact local_digits x y z s hx (.inr hs)
  · intro x y z hx _
    exact local_digits.again hx (Replaces.append (.inr hs) y)
  · intro y z hy
    exact numberRest_front hy hs

/-- The point behind some digits belongs to the number, unless it opens a dotted operator. -/
theorem exists_number_point {digits t : Text} (hdigits : ∀ c ∈ digits, c.isDigit = true)
    (hopens : opensDotOperator ('.' :: t) = false) :
    ∃ more rest, numberPattern (digits ++ '.' :: t) = (digits ++ '.' :: more, rest) := by
  have hfront : digitsPattern (digits ++ '.' :: t) = (digits, '.' :: t) := by
    refine many_eq_iff.mpr ⟨hdigits, fun c hc => ?_⟩
    rw [← Option.some.inj hc]
    decide
  have hfraction : fractionPattern ('.' :: t) =
      ('.' :: (digitsPattern t).1, (digitsPattern t).2) := by
    rw [fractionPattern, if_neg (Bool.eq_false_iff.mp hopens)]
    rfl
  refine ⟨(digitsPattern t).1 ++ (numberTailPattern (digitsPattern t).2).1,
    (numberTailPattern (digitsPattern t).2).2, ?_⟩
  simp [numberPattern, seq, hfront, hfraction]

/-- Digits that are a number in front of a point leave it to a dotted operator. -/
theorem opensDotOperator_of_number {digits t : Text} (hdigits : ∀ c ∈ digits, c.isDigit = true)
    (h : numberPattern (digits ++ '.' :: t) = (digits, '.' :: t)) :
    opensDotOperator ('.' :: t) = true := by
  cases hopens : opensDotOperator ('.' :: t) with
  | true => rfl
  | false =>
      obtain ⟨more, rest, hpoint⟩ := exists_number_point hdigits hopens
      have htaken : digits = digits ++ '.' :: more := congrArg Prod.fst (h.symm.trans hpoint)
      simp at htaken

end Lexeme

end FreeForm
