import FreeForm.Proofs.Scan.Characters
import Mathlib.Data.List.Basic

namespace FreeForm

/-!
# The grammar of numbers

A number is a mantissa, perhaps with an exponent and a kind. Whatever is read as a number is one,
and a number that stands alone is read to its end. So what is read is as long as it can be: no
longer front of the text is a number, unless the decimal point behind some digits opens a dotted operator.
-/

open Lexeme

namespace Lexeme

/-- A run of decimal digits of ASCII, which may be empty. -/
def IsDigits (t : Text) : Prop :=
  ∀ c ∈ t, c.isDigit = true

/-- Digits with or without a decimal point. There is a digit in front of the point or behind it. -/
inductive IsMantissa : Text → Prop
  | whole {t : Text} (hne : t ≠ []) (ht : IsDigits t) : IsMantissa t
  | decimal {t u : Text} (hne : t ≠ []) (ht : IsDigits t) (hu : IsDigits u) :
      IsMantissa (t ++ '.' :: u)
  | fraction {u : Text} (hne : u ≠ []) (hu : IsDigits u) : IsMantissa ('.' :: u)

/-- Nothing, or an exponent letter with a sign and digits where there are any. -/
inductive IsExponent : Text → Prop
  | nothing : IsExponent []
  | unsigned {c : Char} {t : Text} (hc : c ∈ ['e', 'E', 'd', 'D']) (ht : IsDigits t) :
      IsExponent (c :: t)
  | signed {c s : Char} {t : Text} (hc : c ∈ ['e', 'E', 'd', 'D']) (hs : s ∈ ['+', '-'])
      (ht : IsDigits t) : IsExponent (c :: s :: t)

/-- Nothing, or an underscore with a word that starts with a letter, or with digits where there are
any. -/
inductive IsKindSuffix : Text → Prop
  | nothing : IsKindSuffix []
  | name {c : Char} {t : Text} (hc : Unicode.isAlphabetic c = true)
      (ht : ∀ d ∈ t, isNamePart d = true) : IsKindSuffix ('_' :: c :: t)
  | digits {t : Text} (ht : IsDigits t) : IsKindSuffix ('_' :: t)

/-- What may stand behind the mantissa of a number. -/
inductive IsNumberTail : Text → Prop
  | intro {e k : Text} (he : IsExponent e) (hk : IsKindSuffix k) : IsNumberTail (e ++ k)

inductive IsNumber : Text → Prop
  | intro {m t : Text} (hm : IsMantissa m) (ht : IsNumberTail t) : IsNumber (m ++ t)

theorem isExponentLetter_iff {c : Char} :
    isExponentLetter c = true ↔ c ∈ ['e', 'E', 'd', 'D'] := by
  simp [isExponentLetter, or_assoc]

theorem isSign_iff {c : Char} : isSign c = true ↔ c ∈ ['+', '-'] := by
  simp [isSign]

section Taken

open Pattern

theorem lead_cons {p : Char → Bool} {c : Char} (hc : p c = true) (f : Pattern) (t : Text) :
    lead p f (c :: t) = (c :: (f t).1, (f t).2) :=
  if_pos hc

theorem lead_nil {p : Char → Bool} {t : Text} (ht : ∀ c ∈ t.head?, p c = false) (f : Pattern) :
    lead p f t = ([], t) := by
  cases t with
  | nil => rfl
  | cons c t => exact if_neg (Bool.eq_false_iff.mp (ht c rfl))

theorem lead_cases (p : Char → Bool) (f : Pattern) (t : Text) :
    (lead p f t).1 = [] ∨
      ∃ c rest, t = c :: rest ∧ p c = true ∧ (lead p f t).1 = c :: (f rest).1 := by
  cases t with
  | nil => exact .inl rfl
  | cons c rest =>
      by_cases hc : p c = true
      · exact .inr ⟨c, rest, rfl, hc, congrArg Prod.fst (lead_cons hc f rest)⟩
      · refine .inl (congrArg Prod.fst (lead_nil (fun d hd => ?_) f))
        rw [← Option.some.inj hd]
        exact Bool.eq_false_iff.mpr hc

theorem isDigits_taken (t : Text) : IsDigits (digitsPattern t).1 :=
  fun c hc => List.all_eq_true.mp List.all_takeWhile c hc

theorem isExponent_taken (t : Text) : IsExponent (exponentPattern t).1 := by
  rcases lead_cases isExponentLetter (.seq (.lead isSign .nothing) digitsPattern) t with
    hnil | ⟨c, rest, _, hc, htaken⟩
  · rw [exponentPattern, hnil]
    exact .nothing
  · have hletter := isExponentLetter_iff.mp hc
    have hdigits := isDigits_taken (lead isSign nothing rest).2
    rw [exponentPattern, htaken, Pattern.seq]
    rcases lead_cases isSign nothing rest with hnil | ⟨s, _, _, hs, hsign⟩
    · rw [hnil]
      exact .unsigned hletter hdigits
    · rw [hsign]
      exact .signed hletter (isSign_iff.mp hs) hdigits

theorem isKindSuffix_taken (t : Text) : IsKindSuffix (lead (· == '_') kindPattern t).1 := by
  rcases lead_cases (· == '_') kindPattern t with hnil | ⟨c, rest, _, hc, htaken⟩
  · rw [hnil]
    exact .nothing
  · rw [htaken, beq_iff_eq.mp hc, kindPattern]
    by_cases hletter : rest.head?.any Unicode.isAlphabetic = true
    · obtain ⟨d, rest, rfl⟩ : ∃ d more, rest = d :: more := by
        cases rest with
        | nil => cases hletter
        | cons d rest => exact ⟨d, rest, rfl⟩
      have hd : Unicode.isAlphabetic d = true := hletter
      have hpart : isNamePart d = true := by simp [isNamePart, hd]
      rw [if_pos hletter, namePattern, many, List.takeWhile_cons_of_pos hpart]
      exact .name hd fun e he => List.all_eq_true.mp List.all_takeWhile e he
    · rw [if_neg hletter]
      exact .digits (isDigits_taken rest)

theorem isNumberTail_taken (t : Text) : IsNumberTail (numberTailPattern t).1 :=
  .intro (isExponent_taken t) (isKindSuffix_taken _)

theorem fraction_taken (t : Text) : (fractionPattern t).1 = [] ∨
    ∃ u, (fractionPattern t).1 = '.' :: u ∧ IsDigits u := by
  unfold fractionPattern
  split
  · exact .inl rfl
  · rcases lead_cases (· == '.') digitsPattern t with hnil | ⟨c, rest, _, hc, htaken⟩
    · exact .inl hnil
    · rw [beq_iff_eq.mp hc] at htaken
      exact .inr ⟨_, htaken, isDigits_taken rest⟩

/-- What is read as a number is one. -/
theorem isNumber_taken {c : Char} (hc : c.isDigit = true) (rest : Text) :
    IsNumber (numberPattern (c :: rest)).1 := by
  have hne : (digitsPattern (c :: rest)).1 ≠ [] := by
    simp [digitsPattern, many, hc]
  have hdigits := isDigits_taken (c :: rest)
  rcases fraction_taken (digitsPattern (c :: rest)).2 with hnil | ⟨u, hpoint, hu⟩
  · have hwhole := IsNumber.intro (.whole hne hdigits)
      (isNumberTail_taken (fractionPattern (digitsPattern (c :: rest)).2).2)
    simpa [numberPattern, Pattern.seq, hnil] using hwhole
  · have hdecimal := IsNumber.intro (.decimal hne hdigits hu)
      (isNumberTail_taken (fractionPattern (digitsPattern (c :: rest)).2).2)
    simpa [numberPattern, Pattern.seq, hpoint] using hdecimal

theorem isNumber_taken_point {rest : Text} (h : rest.head?.any Char.isDigit = true) :
    IsNumber (pointNumberPattern ('.' :: rest)).1 := by
  have hne : (digitsPattern rest).1 ≠ [] := by
    cases rest with
    | nil => cases h
    | cons d rest =>
        have hd : d.isDigit = true := h
        simp [digitsPattern, many, hd]
  have hfraction := IsNumber.intro (.fraction hne (isDigits_taken rest))
    (isNumberTail_taken (digitsPattern rest).2)
  simpa [pointNumberPattern, Pattern.seq, Pattern.lead] using hfraction

end Taken

section Alone

theorem digits_exact {t r : Text} (ht : IsDigits t) (hr : ∀ c ∈ r.head?, c.isDigit = false) :
    digitsPattern (t ++ r) = (t, r) :=
  Pattern.many_eq_iff.mpr ⟨ht, hr⟩

theorem digits_exact_nil {t : Text} (ht : IsDigits t) : digitsPattern t = (t, []) := by
  have hexact := digits_exact (r := []) ht (by simp)
  rwa [List.append_nil] at hexact

/-- A kind suffix starts with an underscore. -/
theorem IsKindSuffix.head?_eq {k : Text} (h : IsKindSuffix k) : ∀ c ∈ k.head?, c = '_' := by
  cases h <;> simp

theorem IsKindSuffix.alone {k : Text} (h : IsKindSuffix k) :
    Pattern.lead (· == '_') kindPattern k = (k, []) := by
  cases h with
  | nothing => rfl
  | @name c t hc ht =>
      have hall : ∀ d ∈ c :: t, isNamePart d = true := by
        refine List.forall_mem_cons.mpr ⟨?_, ht⟩
        simp [isNamePart, hc]
      have hname : namePattern (c :: t) = (c :: t, []) := by
        have hexact := Pattern.many_eq_iff (p := isNamePart) (r := []).mpr ⟨hall, by simp⟩
        rwa [List.append_nil] at hexact
      have hkind : kindPattern (c :: t) = (c :: t, []) := by
        rw [kindPattern,
          if_pos (show (c :: t).head?.any Unicode.isAlphabetic = true from hc), hname]
      simp [Pattern.lead, hkind]
  | @digits t ht =>
      have hletter : ¬t.head?.any Unicode.isAlphabetic = true := by
        cases t with
        | nil => simp
        | cons d t => simp [Unicode.not_isAlphabetic_of_isDigit (ht d List.mem_cons_self)]
      have hkind : kindPattern t = (t, []) := by
        rw [kindPattern, if_neg hletter, digits_exact_nil ht]
      simp [Pattern.lead, hkind]

theorem IsExponent.alone {e k : Text} (he : IsExponent e) (hk : IsKindSuffix k) :
    exponentPattern (e ++ k) = (e, k) := by
  have hmark : ∀ p : Char → Bool, p '_' = false → ∀ c ∈ k.head?, p c = false := by
    intro p hp c hc
    rw [hk.head?_eq c hc]
    exact hp
  cases he with
  | nothing => exact lead_nil (hmark isExponentLetter (by decide)) _
  | @unsigned c t hc ht =>
      have hletter := isExponentLetter_iff.mpr hc
      have hsign : ∀ d ∈ (t ++ k).head?, isSign d = false := by
        intro d hd
        cases t with
        | nil => exact hmark isSign (by decide) d hd
        | cons b t =>
            obtain rfl : b = d := Option.some.inj hd
            rw [Bool.eq_false_iff]
            intro hb
            have hdigit := ht b List.mem_cons_self
            simp only [isSign, Bool.or_eq_true, beq_iff_eq] at hb
            rcases hb with rfl | rfl <;> cases hdigit
      have hdigits := digits_exact ht (hmark Char.isDigit (by decide))
      rw [exponentPattern, List.cons_append, lead_cons hletter, Pattern.seq, lead_nil hsign,
        hdigits]
      rfl
  | @signed c s t hc hs ht =>
      have hletter := isExponentLetter_iff.mpr hc
      have hsign := isSign_iff.mpr hs
      have hdigits := digits_exact ht (hmark Char.isDigit (by decide))
      rw [exponentPattern, List.cons_append, List.cons_append, lead_cons hletter, Pattern.seq,
        lead_cons hsign, Pattern.nothing, hdigits]
      rfl

theorem IsNumberTail.alone {t : Text} (h : IsNumberTail t) : numberTailPattern t = (t, []) := by
  cases h with
  | intro he hk => simp only [numberTailPattern, Pattern.seq, he.alone hk, hk.alone]

/-- Neither a digit nor a point stands behind the mantissa of a number. -/
theorem IsNumberTail.head?_ne {t : Text} (h : IsNumberTail t) :
    ∀ c ∈ t.head?, c.isDigit = false ∧ c ≠ '.' := by
  have hletter : ∀ c ∈ ['e', 'E', 'd', 'D'], c.isDigit = false ∧ c ≠ '.' := by
    have hall : ['e', 'E', 'd', 'D'].all (fun c => !c.isDigit && c != '.') = true := by decide
    intro c hc
    simpa using List.all_eq_true.mp hall c hc
  cases h with
  | intro he hk =>
      intro c hc
      cases he with
      | nothing =>
          rw [hk.head?_eq c hc]
          decide
      | unsigned hd _ => exact hletter c (Option.some.inj hc ▸ hd)
      | signed hd _ _ => exact hletter c (Option.some.inj hc ▸ hd)

theorem IsNumberTail.point_not_mem {t : Text} (h : IsNumberTail t) : '.' ∉ t := by
  have hdigits : ∀ u, IsDigits u → '.' ∉ u := by
    intro u hu hmem
    cases hu '.' hmem
  have hexponent : ∀ e, IsExponent e → '.' ∉ e := by
    intro e he
    cases he with
    | nothing => simp
    | @unsigned c u hc hu =>
        have hne : '.' ≠ c := by
          rintro rfl
          simp at hc
        simp [hne, hdigits u hu]
    | @signed c s u hc hs hu =>
        have hne : '.' ≠ c := by
          rintro rfl
          simp at hc
        have hne' : '.' ≠ s := by
          rintro rfl
          simp at hs
        simp [hne, hne', hdigits u hu]
  have hsuffix : ∀ k, IsKindSuffix k → '.' ∉ k := by
    intro k hk
    cases hk with
    | nothing => simp
    | @name c u hc hu =>
        have hne : '.' ≠ c := by
          rintro rfl
          cases hc
        have hrest : '.' ∉ u := by
          intro hmem
          cases hu '.' hmem
        simp [hne, hrest]
    | @digits u hu => simp [hdigits u hu]
  cases h with
  | intro he hk =>
      rw [List.mem_append, not_or]
      exact ⟨hexponent _ he, hsuffix _ hk⟩

/-- The decimal point of a number that stands alone opens no dotted operator. -/
theorem IsNumberTail.not_opensDotOperator {u t : Text} (hu : IsDigits u) (h : IsNumberTail t) :
    opensDotOperator ('.' :: (u ++ t)) = false := by
  rw [Bool.eq_false_iff]
  intro hopens
  obtain ⟨letters, rest, heq, _, _⟩ := opensDotOperator_iff.mp hopens
  have hmem : '.' ∈ u ++ t := by
    rw [(List.cons.inj heq).2]
    simp
  rcases List.mem_append.mp hmem with hmem | hmem
  · cases hu '.' hmem
  · exact h.point_not_mem hmem

/-- A number that stands alone is read to its end. -/
theorem IsNumber.alone {t : Text} (h : IsNumber t) :
    (∃ c rest, t = c :: rest ∧ c.isDigit = true ∧ numberPattern t = (t, [])) ∨
      ∃ rest, t = '.' :: rest ∧ pointNumberPattern t = (t, []) := by
  have hcons : ∀ {u v : Text}, u ≠ [] → IsDigits u → ∃ c rest, u ++ v = c :: rest ∧
      c.isDigit = true := by
    intro u v hne hu
    obtain ⟨c, u, rfl⟩ := List.exists_cons_of_ne_nil hne
    exact ⟨c, u ++ v, rfl, hu c List.mem_cons_self⟩
  cases h with
  | @intro m t hm ht =>
      have htail := ht.alone
      have hstop : ∀ c ∈ t.head?, c.isDigit = false := fun c hc => (ht.head?_ne c hc).1
      cases hm with
      | whole hne hm =>
          have hfraction : fractionPattern t = ([], t) := by
            cases t with
            | nil => rfl
            | cons c t =>
                have hc : c ≠ '.' := (ht.head?_ne c rfl).2
                simp [fractionPattern, opensDotOperator, Pattern.lead, hc]
          obtain ⟨c, rest, hrest, hc⟩ := hcons (v := t) hne hm
          refine .inl ⟨c, rest, hrest, hc, ?_⟩
          simp [numberPattern, Pattern.seq, digits_exact hm hstop, hfraction, htail]
      | @decimal w u hne hw hu =>
          have hpoint : ∀ c ∈ ('.' :: (u ++ t)).head?, c.isDigit = false := by
            intro c hc
            rw [← Option.some.inj hc]
            decide
          have hfraction : fractionPattern ('.' :: (u ++ t)) = ('.' :: u, t) := by
            simp [fractionPattern, ht.not_opensDotOperator hu, Pattern.lead, digits_exact hu hstop]
          obtain ⟨c, rest, hrest, hc⟩ := hcons (v := '.' :: (u ++ t)) hne hw
          refine .inl ⟨c, rest, by simpa using hrest, hc, ?_⟩
          simp [numberPattern, Pattern.seq, digits_exact hw hpoint, hfraction, htail]
      | @fraction u hne hu =>
          refine .inr ⟨u ++ t, rfl, ?_⟩
          simp [pointNumberPattern, Pattern.seq, Pattern.lead, digits_exact hu hstop, htail]

end Alone

/-- Every character of a number is one that names and numbers are made of. -/
theorem IsNumber.isWordy {t : Text} (h : IsNumber t) : ∀ c ∈ t, Line.isWordy c = true := by
  intro c hc
  rcases h.alone with ⟨_, _, _, _, halone⟩ | ⟨_, _, halone⟩
  · have hwordy := Line.of_number t c
    rw [halone] at hwordy
    exact hwordy hc
  · have hwordy := Line.of_pointNumber t c
    rw [halone] at hwordy
    exact hwordy hc

section Longest

variable {t r u : Text} (hne : u ≠ []) (hu : u <+: r)
include hne hu

/-- No longer front of a text is a number than the one that is read, unless its digits stand in
front of a dotted operator. -/
theorem not_isNumber_append {c : Char} (hc : c.isDigit = true)
    (h : numberPattern (c :: t ++ r) = (c :: t, r))
    (hopens : ¬(IsDigits (c :: t) ∧ opensDotOperator r = true)) : ¬IsNumber (c :: t ++ u) := by
  obtain ⟨v, rfl⟩ := hu
  intro hnumber
  have hagain : numberPattern (c :: t ++ u) = (c :: t, u) := by
    refine number_again h (List.head?_append_of_ne_nil u hne).symm ?_ ?_
    · intro hdigits hrest
      exact absurd ⟨hdigits, hrest⟩ hopens
    · intro z _ hz
      rw [← List.append_assoc]
      exact opensDotOperator_append hz v
  rcases hnumber.alone with ⟨_, _, _, _, halone⟩ | ⟨_, hpoint, _⟩
  · exact hne (congrArg Prod.snd (hagain.symm.trans halone))
  · obtain ⟨rfl, _⟩ := List.cons.inj hpoint
    cases hc

theorem not_isNumber_append_point (h : pointNumberPattern ('.' :: t ++ r) = ('.' :: t, r)) :
    ¬IsNumber ('.' :: t ++ u) := by
  obtain ⟨v, rfl⟩ := hu
  intro hnumber
  have hagain : pointNumberPattern ('.' :: t ++ u) = ('.' :: t, u) :=
    local_pointNumber.again h (.inl (List.head?_append_of_ne_nil u hne).symm)
  rcases hnumber.alone with ⟨c, _, hdigit, hc, _⟩ | ⟨_, _, halone⟩
  · obtain ⟨rfl, _⟩ := List.cons.inj hdigit
    cases hc
  · exact hne (congrArg Prod.snd (hagain.symm.trans halone))

end Longest

end Lexeme

end FreeForm
