import Mathlib.Data.List.TakeWhile
import FreeForm.Text

namespace FreeForm

/-!
# Trimming and the first word

White space around a text does not matter to what is left when it is trimmed, and white space behind
it does not matter to its first word and to what follows the word. So a line may be cut into words
as it stands, wherever it has been trimmed in between.
-/

namespace Text

theorem dropEndWhile_append_of_pos {p : Char → Bool} (t : Text) {w : Text}
    (hw : ∀ c ∈ w, p c = true) : dropEndWhile p (t ++ w) = dropEndWhile p t := by
  have hback : ∀ c ∈ w.reverse, p c = true := fun c hc => hw c (List.mem_reverse.mp hc)
  rw [dropEndWhile, List.reverse_append, List.dropWhile_append_of_pos hback, dropEndWhile]

theorem dropEndWhile_cons_of_neg {p : Char → Bool} {c : Char} (hc : p c = false) (t : Text) :
    dropEndWhile p (c :: t) = c :: dropEndWhile p t := by
  rw [dropEndWhile, List.reverse_cons, List.dropWhile_append, dropEndWhile]
  split
  · rename_i hnone
    have hnil : t.reverse.dropWhile p = [] := List.isEmpty_iff.mp hnone
    simp [hnil, hc]
  · rw [List.reverse_append, List.reverse_singleton, List.singleton_append]

theorem exists_dropEndWhile (p : Char → Bool) (t : Text) :
    ∃ w, (∀ c ∈ w, p c = true) ∧ t = dropEndWhile p t ++ w := by
  refine ⟨(t.reverse.takeWhile p).reverse, fun c hc => ?_, ?_⟩
  · exact List.all_eq_true.mp List.all_takeWhile c (List.mem_reverse.mp hc)
  · rw [dropEndWhile, ← List.reverse_append, List.takeWhile_append_dropWhile, List.reverse_reverse]

theorem trim_blank_cons (t : Text) : trim (' ' :: t) = trim t := rfl

section Space

variable {t w : Text} (hw : ∀ c ∈ w, Unicode.isWhiteSpace c = true)
include hw

theorem trim_space_append : trim (w ++ t) = trim t := by
  rw [trim, trimStart, List.dropWhile_append_of_pos hw, trim, trimStart]

theorem trim_append_space : trim (t ++ w) = trim t := by
  rw [trim, trimStart, List.dropWhile_append]
  split
  · rename_i hnone
    have hleft : t.dropWhile Unicode.isWhiteSpace = [] := List.isEmpty_iff.mp hnone
    rw [List.dropWhile_eq_nil_iff.mpr hw, trim, trimStart, hleft]
  · rw [dropEndWhile_append_of_pos _ hw, trim, trimStart]

theorem splitWord_append_space : splitWord (t ++ w) = splitWord t := by
  have hstop : ∀ c ∈ w.head?, ¬ (!Unicode.isWhiteSpace c) = true := by
    intro c hc
    simp [hw c (List.mem_of_mem_head? hc)]
  have hnone : w.takeWhile (!Unicode.isWhiteSpace ·) = [] := by
    cases w with
    | nil => rfl
    | cons c w => exact List.takeWhile_cons_of_neg (hstop c rfl)
  have hall : w.dropWhile (!Unicode.isWhiteSpace ·) = w := by
    cases w with
    | nil => rfl
    | cons c w => exact List.dropWhile_cons_of_neg (hstop c rfl)
  unfold splitWord
  rw [List.takeWhile_append, List.dropWhile_append, hnone, hall, List.append_nil]
  refine Prod.ext ?_ ?_
  · dsimp only
    split
    · rename_i hlength
      exact ((List.takeWhile_prefix _).eq_of_length hlength).symm
    · rfl
  · dsimp only
    split
    · rename_i hempty
      rw [List.isEmpty_iff.mp hempty, ← List.append_nil w, trim_space_append hw]
    · exact trim_append_space hw

end Space

theorem exists_trim (t : Text) :
    ∃ v w, (∀ c ∈ v, Unicode.isWhiteSpace c = true) ∧ (∀ c ∈ w, Unicode.isWhiteSpace c = true) ∧
      t = v ++ (trim t ++ w) := by
  obtain ⟨w, hw, hback⟩ := exists_dropEndWhile Unicode.isWhiteSpace (trimStart t)
  refine ⟨t.takeWhile Unicode.isWhiteSpace, w, ?_, hw, ?_⟩
  · exact List.all_eq_true.mp List.all_takeWhile
  · rw [trim, ← hback, trimStart, List.takeWhile_append_dropWhile]

theorem trim_trim (t : Text) : trim (trim t) = trim t := by
  obtain ⟨v, w, hv, hw, hwhole⟩ := exists_trim t
  calc
    trim (trim t) = trim (v ++ (trim t ++ w)) := by
      rw [trim_space_append hv, trim_append_space hw]
    _ = trim t := by rw [← hwhole]

theorem head?_trim {t : Text} {c : Char} (hc : c ∈ (trim t).head?) :
    Unicode.isWhiteSpace c = false := by
  obtain ⟨w, _, hback⟩ := exists_dropEndWhile Unicode.isWhiteSpace (trimStart t)
  have hstart : (trimStart t).head? = some c := by
    rw [hback, List.head?_append, show (dropEndWhile _ (trimStart t)).head? = some c from hc]
    rfl
  have hnot := List.head?_dropWhile_not Unicode.isWhiteSpace t
  rw [show (t.dropWhile Unicode.isWhiteSpace).head? = some c from hstart] at hnot
  exact hnot

/-- No white space ends a trimmed text. -/
theorem eq_nil_of_trim {x w : Text} (ht : trim (x ++ w) = x ++ w)
    (hw : ∀ c ∈ w, Unicode.isWhiteSpace c = true) : w = [] := by
  obtain ⟨v', w', _, _, hx⟩ := exists_trim x
  rw [← trim_append_space hw, ht] at hx
  have hlength := congrArg List.length hx
  simp only [List.length_append] at hlength
  exact List.length_eq_zero_iff.mp (by omega)

/-- The end of a trimmed text is trimmed if it starts with no white space. -/
theorem trim_of_trim_append {x rest : Text} (ht : trim (x ++ rest) = x ++ rest)
    (hrest : ∀ c ∈ rest.head?, Unicode.isWhiteSpace c = false) : trim rest = rest := by
  obtain ⟨v, w, hv, hw, hwhole⟩ := exists_trim rest
  have hfront : v = [] := by
    cases v with
    | nil => rfl
    | cons c v =>
        have hc := hrest c (by rw [hwhole]; rfl)
        rw [hv c List.mem_cons_self] at hc
        cases hc
  rw [hfront, List.nil_append] at hwhole
  have hback : w = [] := by
    rw [hwhole, ← List.append_assoc] at ht
    exact eq_nil_of_trim ht hw
  rw [hback, List.append_nil] at hwhole
  exact hwhole.symm

theorem trim_of_ends {c d : Char} (hc : Unicode.isWhiteSpace c = false)
    (hd : Unicode.isWhiteSpace d = false) (t : Text) : trim (c :: t ++ [d]) = c :: t ++ [d] := by
  have hstart : trimStart (c :: t ++ [d]) = c :: t ++ [d] := List.dropWhile_cons_of_neg (by simp [hc])
  rw [trim, hstart, dropEndWhile, List.reverse_append, List.reverse_singleton,
    List.singleton_append, List.dropWhile_cons_of_neg (by simp [hd]), List.reverse_cons,
    List.reverse_reverse]

/-- A word in front of white space, or alone. -/
theorem splitWord_append {word rest : Text}
    (hword : ∀ c ∈ word, Unicode.isWhiteSpace c = false)
    (hrest : ∀ c ∈ rest.head?, Unicode.isWhiteSpace c = true) :
    splitWord (word ++ rest) = (word, trim rest) := by
  have hall : ∀ c ∈ word, (!Unicode.isWhiteSpace c) = true := by
    intro c hc
    rw [hword c hc]
    rfl
  unfold splitWord
  rw [List.takeWhile_append_of_pos hall, List.dropWhile_append_of_pos hall]
  cases rest with
  | nil => rw [List.takeWhile_nil, List.dropWhile_nil, List.append_nil]
  | cons c rest => simp [hrest c rfl]

/-- A text that starts with a word may be trimmed before it is cut into words. -/
theorem splitWord_trim {t : Text} {c : Char} (ht : t.head? = some c)
    (hc : Unicode.isWhiteSpace c = false) : splitWord (trim t) = splitWord t := by
  obtain ⟨rest, rfl⟩ := List.head?_eq_some_iff.mp ht
  obtain ⟨w, hw, hback⟩ := exists_dropEndWhile Unicode.isWhiteSpace (c :: rest)
  have hstart : trimStart (c :: rest) = c :: rest := by simp [trimStart, hc]
  rw [trim, hstart]
  exact (splitWord_append_space hw).symm.trans (congrArg splitWord hback.symm)

theorem splitWord_trim_append {word rest : Text} (hne : word ≠ [])
    (hword : ∀ c ∈ word, Unicode.isWhiteSpace c = false)
    (hrest : ∀ c ∈ rest.head?, Unicode.isWhiteSpace c = true) :
    splitWord (trim (word ++ rest)) = (word, trim rest) := by
  obtain ⟨c, word, rfl⟩ := List.exists_cons_of_ne_nil hne
  rw [splitWord_trim (c := c) rfl (hword c List.mem_cons_self), splitWord_append hword hrest]

/-- A word with white space around it, in front of more text. -/
theorem splitWord_padded {name : Text} (hname : trim name ≠ [])
    (hword : ∀ c ∈ trim name, Unicode.isWhiteSpace c = false) (rest : Text) :
    splitWord (trim (name ++ ' ' :: rest)) = (trim name, trim rest) := by
  obtain ⟨v, w, hv, hw, hpadded⟩ := exists_trim name
  have hline : name ++ ' ' :: rest = v ++ (trim name ++ (w ++ ' ' :: rest)) := by
    conv => lhs; rw [hpadded]
    simp
  have hbehind : ∀ c ∈ (w ++ ' ' :: rest).head?, Unicode.isWhiteSpace c = true := by
    intro c hc
    cases w with
    | nil =>
        obtain rfl : ' ' = c := Option.some.inj hc
        decide
    | cons d w =>
        obtain rfl : d = c := Option.some.inj hc
        exact hw d List.mem_cons_self
  rw [hline, trim_space_append hv, splitWord_trim_append hname hword hbehind,
    trim_space_append hw, trim_blank_cons]

theorem eq_nil_of_firstWord {t : Text} (ht : ∀ c ∈ t.head?, Unicode.isWhiteSpace c = false)
    (h : firstWord t = []) : t = [] := by
  cases t with
  | nil => rfl
  | cons c t =>
      simp [firstWord, splitWord, ht c rfl] at h

/-- A text is a word and what follows it behind white space. -/
def Splits (t word rest : Text) : Prop :=
  ∃ gap, t = word ++ (gap ++ rest) ∧ (∀ c ∈ word, Unicode.isWhiteSpace c = false) ∧
    (∀ c ∈ gap, Unicode.isWhiteSpace c = true) ∧
    (∀ c ∈ rest.head?, Unicode.isWhiteSpace c = false) ∧ (gap = [] → rest = [])

theorem Splits.suffix {t word rest : Text} (h : t.Splits word rest) : rest <:+ t := by
  obtain ⟨gap, rfl, _⟩ := h
  exact (List.suffix_append gap rest).trans (List.suffix_append word _)

section Trimmed

variable {t : Text} (ht : trim t = t)
include ht

theorem Splits.trim_rest {word rest : Text} (h : t.Splits word rest) : trim rest = rest := by
  obtain ⟨gap, hwhole, _, _, hrest, _⟩ := h
  rw [hwhole, ← List.append_assoc] at ht
  exact trim_of_trim_append ht hrest

/-- A trimmed text is cut into its first word and the rest. -/
theorem splits_iff {word rest : Text} : t.Splits word rest ↔ splitWord t = (word, rest) := by
  constructor
  · intro h
    have htrim := h.trim_rest ht
    obtain ⟨gap, rfl, hword, hgap, _, hnone⟩ := h
    have hbehind : ∀ c ∈ (gap ++ rest).head?, Unicode.isWhiteSpace c = true := by
      intro c hc
      cases gap with
      | nil =>
          rw [hnone rfl] at hc
          cases hc
      | cons d gap => exact hgap c (List.mem_of_mem_head? hc)
    rw [splitWord_append hword hbehind, trim_space_append hgap, htrim]
  · intro h
    obtain ⟨rfl, rfl⟩ := Prod.mk.inj h
    have hcut : t.takeWhile (!Unicode.isWhiteSpace ·) ++ t.dropWhile (!Unicode.isWhiteSpace ·) = t :=
      List.takeWhile_append_dropWhile
    have hstop := List.head?_dropWhile_not (!Unicode.isWhiteSpace ·) t
    generalize t.dropWhile (!Unicode.isWhiteSpace ·) = behind at hcut hstop
    obtain ⟨gap, w, hgap, hw, hbehind⟩ := exists_trim behind
    have hback : w = [] := by
      rw [← hcut, hbehind, ← List.append_assoc, ← List.append_assoc] at ht
      exact eq_nil_of_trim ht hw
    rw [hback, List.append_nil] at hbehind
    refine ⟨gap, by rw [← hbehind, hcut], fun c hc => ?_, hgap, fun c hc => head?_trim hc, ?_⟩
    · simpa using List.all_eq_true.mp List.all_takeWhile c hc
    · rintro rfl
      cases hrest : trim behind with
      | nil => rfl
      | cons c rest =>
          have hc : Unicode.isWhiteSpace c = false := head?_trim (t := behind) (by rw [hrest]; rfl)
          rw [hbehind, hrest] at hstop
          have hspace : (!Unicode.isWhiteSpace c) = false := hstop
          rw [hc] at hspace
          cases hspace

end Trimmed

section Word

variable {word : Text} (hword : ∀ c ∈ word, Unicode.isWhiteSpace c = false)
include hword

theorem trim_word : trim word = word := by
  obtain ⟨v, w, hv, hw, hpadded⟩ := exists_trim word
  have hnone : ∀ u ⊆ word, (∀ c ∈ u, Unicode.isWhiteSpace c = true) → u = [] := by
    intro u hsub hu
    refine List.eq_nil_iff_forall_not_mem.mpr fun c hc => ?_
    have hspace := hu c hc
    rw [hword c (hsub hc)] at hspace
    cases hspace
  have hfront : v = [] := hnone v (by rw [hpadded]; simp) hv
  have hback : w = [] := hnone w (by rw [hpadded]; simp) hw
  rw [hfront, hback, List.nil_append, List.append_nil] at hpadded
  exact hpadded.symm

theorem firstWord_word : firstWord word = word := by
  have hsplit : splitWord (word ++ []) = (word, trim []) :=
    splitWord_append hword fun c hc => by cases hc
  rw [List.append_nil] at hsplit
  rw [firstWord, hsplit]

end Word

end Text

end FreeForm
