import FreeForm.Proofs.Scan.Characters
import Mathlib.Data.List.Basic

namespace FreeForm

/-!
# Lexemes in front of blanks and separators

A blank ends every lexeme but a string and a comment, and so does any character that no name, number
or operator is made of. So what was read up to the end of a text, or up to the blanks at its end, is
read again where such a character stands behind it, unless it is a comment or a string that is still
open.
-/

open Lexeme

/-- Whether a text is empty or starts with a blank. -/
def StartsBlank (s : Text) : Prop :=
  ∀ c ∈ s.head?, isBlank c = true

/-- Whether a text is empty or starts with a character that no name, number or operator goes on with
and that no string starts with. -/
def EndsTokens (s : Text) : Prop :=
  ∀ c ∈ s.head?, Line.isWordy c = false ∧ Line.isQuote c = false

theorem StartsBlank.endsTokens {s : Text} (hs : StartsBlank s) : EndsTokens s := by
  intro c hc
  rcases Line.isBlank_iff.mp (hs c hc) with rfl | rfl <;> decide

theorem EndsTokens.any_isDigit {s : Text} (hs : EndsTokens s) :
    s.head?.any Char.isDigit = false := by
  cases s with
  | nil => rfl
  | cons c s =>
      rw [List.head?_cons, Option.any_some, Bool.eq_false_iff]
      intro hdigit
      have hc := (hs c rfl).1
      rw [Line.isWordy_of_isDigit hdigit] at hc
      cases hc

theorem EndsTokens.opensDotOperator {s : Text} (hs : EndsTokens s) {t : Text}
    (h : opensDotOperator (t ++ s) = true) : opensDotOperator t = true := by
  refine opensDotOperator_of_append (fun c hc => ?_) h
  have hwordy := (hs c hc).1
  constructor
  · rw [Bool.eq_false_iff]
    intro hletter
    rw [Line.isWordy_of_isAlphabetic hletter] at hwordy
    cases hwordy
  · rintro rfl
    cases hwordy

/-- What a pattern takes of a text it takes in front of a character that it does not take, if less
than all of the text would have been taken of the text itself. -/
theorem Pattern.before_end {f : Pattern} (hlossless : f.Lossless) (hof : f.Of Line.isWordy)
    {t s : Text} (hs : EndsTokens s) (h : f t = (t, []))
    (hagain : ∀ x z, z ≠ [] → f (x ++ (z ++ s)) = (x, z ++ s) → f (x ++ z) = (x, z)) :
    f (t ++ s) = (t, s) := by
  cases htaken : f (t ++ s) with
  | mk x y =>
      have hwhole := hlossless (t ++ s)
      have hwordy := hof (t ++ s)
      rw [htaken] at hwhole hwordy
      rcases List.append_eq_append_iff.mp hwhole with ⟨z, rfl, rfl⟩ | ⟨z, rfl, rfl⟩
      · cases z with
        | nil => rw [List.append_nil, List.nil_append]
        | cons c z =>
            rw [List.append_assoc] at htaken
            have hless := hagain x (c :: z) (List.cons_ne_nil c z) htaken
            rw [h] at hless
            cases congrArg Prod.snd hless
      · cases z with
        | nil => rw [List.append_nil, List.nil_append]
        | cons c z =>
            have hc := hwordy c (by simp)
            rw [(hs c rfl).1] at hc
            cases hc

theorem Pattern.Local.before_end {f : Pattern} (hf : f.Local) (hlossless : f.Lossless)
    (hof : f.Of Line.isWordy) {t s : Text} (hs : EndsTokens s) (h : f t = (t, [])) :
    f (t ++ s) = (t, s) := by
  refine Pattern.before_end hlossless hof hs h fun x z hz hless => ?_
  exact hf.again hless (.inl (List.head?_append_of_ne_nil z hz).symm)

theorem number_before_end {t s : Text} (hs : EndsTokens s) (h : numberPattern t = (t, [])) :
    numberPattern (t ++ s) = (t, s) := by
  refine Pattern.before_end lossless_number Line.of_number hs h fun x z hz hless => ?_
  refine number_again hless (List.head?_append_of_ne_nil z hz).symm (fun _ => hs.opensDotOperator) ?_
  intro w _ hopens
  rw [← List.append_assoc]
  exact opensDotOperator_append hopens s

/-- A string with the delimiter that closes it. -/
def Lexeme.IsClosed (l : Lexeme) : Prop :=
  ∃ q w, Within q w ∧ l.text = q :: (w ++ [q])

/-- Whether a lexeme ends in front of a text that ends tokens. -/
structure Lexeme.EndsAt (l : Lexeme) (s : Text) : Prop where
  comment : l.kind ≠ .comment
  closed : l.kind = .string → l.IsClosed
  blank : l.kind = .whitespace → ∀ c ∈ s.head?, isBlank c = false

theorem Lexeme.EndsAt.of_isSemantic {l : Lexeme} (hl : l.isSemantic = true)
    (hclosed : l.kind = .string → l.IsClosed) (s : Text) : l.EndsAt s := by
  refine ⟨?_, hclosed, ?_⟩
  · intro hkind
    simp [isSemantic, role, hkind, Kind.role] at hl
  · intro hkind
    simp [isSemantic, role, hkind, Kind.role] at hl

namespace Line

theorem Piece.ofKind_before_end {f : Pattern} {kind k : Kind} {t s : Text}
    (h : Piece.ofKind kind (f t) = ⟨⟨k, t⟩, [], none⟩)
    (htaken : f t = (t, []) → f (t ++ s) = (t, s)) :
    Piece.ofKind kind (f (t ++ s)) = ⟨⟨k, t⟩, s, none⟩ := by
  obtain ⟨hk, hall, ho⟩ := Piece.ofKind_eq_iff.mp h
  exact Piece.ofKind_eq_iff.mpr ⟨hk, htaken hall, ho⟩

theorem Piece.ofPunctuation_before_end {c : Char} {t s : Text} {k : Kind} (hs : EndsTokens s)
    (h : Piece.ofPunctuation c t = ⟨⟨k, c :: t⟩, [], none⟩) :
    Piece.ofPunctuation c (t ++ s) = ⟨⟨k, c :: t⟩, s, none⟩ := by
  cases t with
  | nil =>
      obtain ⟨hk, _, _⟩ := Piece.ofKind_eq_iff.mp h
      cases s with
      | nil => exact h
      | cons d s =>
          have hpair : [c, d] ∉ pairs := by
            intro hmem
            have hd := isWordy_of_mem_pair hmem d (by simp)
            rw [(hs d rfl).1] at hd
            cases hd
          rw [List.nil_append, Piece.ofPunctuation, if_neg hpair]
          exact Piece.ofKind_eq_iff.mpr ⟨hk, rfl, rfl⟩
  | cons d t =>
      by_cases hpair : [c, d] ∈ pairs
      · simp only [List.cons_append, Piece.ofPunctuation, if_pos hpair, Piece.ofKind_eq_iff,
          Prod.mk.injEq, List.cons.injEq, true_and] at h ⊢
        obtain ⟨hk, ⟨hnil, _⟩, ho⟩ := h
        simp [← hnil, hk]
      · simp [Piece.ofPunctuation, hpair, Piece.ofKind] at h

/-- A lexeme that reaches to the end of a text is read again in front of what ends it. -/
theorem first?_before_end {l : Lexeme} {s : Text} (hs : EndsTokens s)
    (h : Piece.first? l.text = some ⟨l, [], none⟩) (hl : l.EndsAt s) :
    Piece.first? (l.text ++ s) = some ⟨l, s, none⟩ := by
  obtain ⟨k, t⟩ := l
  cases t with
  | nil => exact absurd rfl (Piece.first?_text_ne_nil h)
  | cons c t =>
      have hnext : (t ++ s).head?.any Char.isDigit = t.head?.any Char.isDigit := by
        cases t with
        | nil => exact hs.any_isDigit
        | cons d t => rfl
      simp only [List.cons_append, Piece.first?, Piece.ofCons?, hnext] at h ⊢
      repeat' split at h
      all_goals simp only [Option.some.injEq, reduceCtorEq] at h
      all_goals simp only [*, if_true, if_false, Bool.false_eq_true, Option.some.injEq]
      · obtain ⟨rfl, hall, _⟩ := Piece.ofKind_eq_iff.mp h
        have hblanks := (Pattern.many_eq_iff (t := c :: t) (r := [])).mp (by simpa using hall)
        have htaken := Pattern.many_eq_iff.mpr ⟨hblanks.1, hl.blank rfl⟩
        exact Piece.ofKind_eq_iff.mpr ⟨rfl, htaken, rfl⟩
      · rename_i hquote
        have hq : c = '\'' ∨ c = '"' := by simpa [isQuote] using hquote
        obtain rfl : Kind.string = k := congrArg (·.lexeme.kind) h
        obtain ⟨q, w, hw, htext⟩ := hl.closed rfl
        obtain ⟨rfl, rfl⟩ := List.cons.inj htext
        have hhead : s.head? ≠ some c := by
          intro hc
          have hopens := (hs c hc).2
          rw [‹isQuote c = true›] at hopens
          cases hopens
        rw [List.append_assoc, List.singleton_append, readQuotation_behind hq hw hhead]
        rfl
      · exact Piece.ofKind_before_end (t := c :: t) h
          (local_name.before_end (Pattern.lossless_many _) of_name hs)
      · exact Piece.ofKind_before_end (t := c :: t) h (number_before_end hs)
      · obtain ⟨rfl, _⟩ := Piece.ofKind_eq_iff.mp h
        exact absurd rfl hl.comment
      · obtain rfl : c = '.' := ‹c = '.'›
        exact congrArg some (Piece.ofKind_before_end (t := '.' :: t) h
          (local_pointNumber.before_end lossless_pointNumber of_pointNumber hs))
      · obtain rfl : c = '.' := ‹c = '.'›
        exact congrArg some (Piece.ofKind_before_end (t := '.' :: t) h
          (local_dotOperator.before_end lossless_dotOperator of_dotOperator hs))
      · exact Piece.ofPunctuation_before_end hs h

/-- Lexemes that reach to the end of a text are read again in front of what ends the last one. -/
theorem Reads.before_end {t s : Text} {ls : List Lexeme} (h : Reads t ls []) (hs : EndsTokens s)
    (hlast : ∀ l ∈ ls.getLast?, l.EndsAt s) : Reads (t ++ s) ls s := by
  rcases List.eq_nil_or_concat ls with rfl | ⟨front, l, rfl⟩
  · cases h
    exact .nil s
  rw [List.concat_eq_append] at h hlast ⊢
  have hl := hlast l List.getLast?_concat
  obtain ⟨u, hfront, hback⟩ := h.exists_of_append
  cases hback with
  | @cons _ _ rest _ hfirst hrest =>
      cases hrest with
      | nil t =>
          rw [List.append_nil] at hfirst hfront
          have hne := Piece.first?_text_ne_nil hfirst
          have hagain : Reads (concat front ++ (l.text ++ s)) front (l.text ++ s) := by
            refine hfront.again hne (List.head?_append_of_ne_nil _ hne) ?_ ?_
            · intro _ _ _ hopens
              exact opensDotOperator_append hopens s
            · intro z _ hopens
              rw [← List.append_assoc] at hopens
              exact hs.opensDotOperator hopens
          have htext : t = concat front ++ l.text := by simpa using hfront.eq_append
          rw [htext, List.append_assoc]
          exact hagain.trans (.cons (first?_before_end hs hfirst hl) (.nil s))

theorem Reads.before_blanks {t r s : Text} {ls : List Lexeme} (h : Reads t ls r)
    (hr : r.all isBlank = true) (hs : StartsBlank s) {l : Lexeme} (hlast : ls.getLast? = some l)
    (hl : l.isSemantic = true) (hclosed : l.kind = .string → l.IsClosed) :
    Reads (t ++ s) ls (r ++ s) := by
  cases r with
  | nil =>
      refine h.before_end hs.endsTokens fun m hm => ?_
      rw [hlast] at hm
      obtain rfl := Option.some.inj hm
      exact .of_isSemantic hl hclosed s
  | cons b r =>
      have hblanks : StartsBlank (b :: r ++ s) := by
        intro c hc
        rw [← Option.some.inj hc]
        exact List.all_eq_true.mp hr b List.mem_cons_self
      have htext := h.eq_append
      subst htext
      rw [List.append_assoc]
      refine h.again (List.cons_ne_nil b r) rfl ?_ ?_
      · intro _ _ _ hopens
        exact opensDotOperator_append hopens s
      · intro z _ hopens
        exact opensDotOperator_append (hblanks.endsTokens.opensDotOperator hopens) _

/-- Without a continuation mark no string is left open, and a text is read lexeme by lexeme. -/
theorem reads_of_scanFresh {t : Text} {ls : List Lexeme} {o : Option Char}
    (h : Line.scanFresh (fun _ => none) t = ⟨ls, o, []⟩)
    (hmarks : ∀ l ∈ ls, l.isContinuation = false) : Reads t ls [] := by
  induction ls generalizing t o with
  | nil =>
      cases hfirst : Piece.first? t with
      | none =>
          rw [scanFresh_of_none hfirst] at h
          obtain rfl : t = [] := congrArg Scan.rest h
          exact .nil []
      | some p =>
          rw [scanFresh_of_first? hfirst] at h
          cases congrArg Scan.lexemes h
  | cons l ls ih =>
      obtain ⟨rest, opened, rfl, hfirst, hlexemes⟩ :=
        first?_of_scanFresh (congrArg Scan.lexemes h)
      rw [scanFresh_of_first? hfirst] at h
      have hleft : (Line.scanFresh (fun _ => none) rest).rest = [] := congrArg Scan.rest h
      cases opened with
      | none =>
          have hrest : Line.scanFresh (fun _ => none) rest =
              ⟨ls, (Line.scanFresh (fun _ => none) rest).openDelimiter, []⟩ := by
            rw [← hlexemes, ← hleft]
          exact .cons hfirst (ih hrest fun m hm => hmarks m (List.mem_cons_of_mem l hm))
      | some q =>
          -- what is left open is left to a mark
          obtain ⟨_, blanks, hmark, _⟩ := opened_of_first? hfirst (Option.some_ne_none q)
          dsimp only at hmark
          rw [hmark, scanFresh_mark] at hlexemes
          have hmarker : marker ∈ l :: ls := by
            rw [← hlexemes]
            simp
          cases hmarks marker hmarker

theorem Reads.all_isBlank {t : Text} {ls : List Lexeme} (h : Reads t ls [])
    (hls : ∀ l ∈ ls, l.isWhitespace = true) : t.all isBlank = true := by
  generalize hnil : ([] : Text) = u at h
  induction h with
  | nil t =>
      subst hnil
      rfl
  | @cons l ls rest t hfirst _ ih =>
      obtain ⟨hl, hls⟩ := List.forall_mem_cons.mp hls
      rw [List.all_append, Piece.isBlank_of_first? hfirst hl, ih hls hnil]
      rfl

theorem first?_blanks {t u : Text} (hne : t ≠ []) (ht : t.all isBlank = true)
    (hu : ∀ c ∈ u.head?, isBlank c = false) :
    Piece.first? (t ++ u) = some ⟨⟨.whitespace, t⟩, u, none⟩ := by
  have htaken : Pattern.many isBlank (t ++ u) = (t, u) :=
    Pattern.many_eq_iff.mpr ⟨List.all_eq_true.mp ht, hu⟩
  obtain ⟨c, t, rfl⟩ := List.exists_cons_of_ne_nil hne
  have hc : isBlank c = true := List.all_eq_true.mp ht c List.mem_cons_self
  rw [List.cons_append] at htaken ⊢
  simp only [Piece.first?, Piece.ofCons?, hc, if_true, htaken]
  rfl

/-- Blanks are one lexeme with the blanks behind them. -/
theorem scanFresh_blanks_append {t : Text} (hne : t ≠ []) (ht : t.all isBlank = true) (u : Text) :
    Line.scanFresh (fun _ => none) (t ++ u) =
      (Line.scanFresh (fun _ => none) (u.dropWhile isBlank)).after
        [⟨.whitespace, t ++ u.takeWhile isBlank⟩] none := by
  have hcut : u.takeWhile isBlank ++ u.dropWhile isBlank = u := List.takeWhile_append_dropWhile
  have hall : (t ++ u.takeWhile isBlank).all isBlank = true := by
    rw [List.all_append, ht, List.all_takeWhile]
    rfl
  have hstop : ∀ c ∈ (u.dropWhile isBlank).head?, isBlank c = false := by
    intro c hc
    have hhead := List.head?_dropWhile_not isBlank u
    rw [Option.mem_def.mp hc] at hhead
    exact hhead
  have hfirst := first?_blanks (List.append_ne_nil_of_left_ne_nil hne _) hall hstop
  rw [List.append_assoc, hcut] at hfirst
  exact scanFresh_of_first? hfirst

end Line

theorem exists_of_getLast?_filter {α : Type} {p : α → Bool} {l : List α} {a : α}
    (h : (l.filter p).getLast? = some a) :
    ∃ front back, l = front ++ [a] ++ back ∧ ∀ b ∈ back, p b = false := by
  obtain ⟨ys, hys⟩ := List.getLast?_eq_some_iff.mp h
  obtain ⟨xs, back, rfl, _, hback⟩ := List.filter_eq_append_iff.mp hys
  obtain ⟨between, back, rfl, _, _, hnone⟩ := List.filter_eq_cons_iff.mp hback
  refine ⟨xs ++ between, back, by simp, fun b hb => ?_⟩
  exact Bool.eq_false_iff.mpr (List.filter_eq_nil_iff.mp hnone b hb)

namespace Line

/-- A text whose last lexeme but for white space is a token, and in which no string is left open, is
read up to its last blanks as it stands, whatever stands behind a further blank. -/
theorem exists_reads_before_blank {t : Text} {ls : List Lexeme} {o : Option Char}
    (hscan : Line.scanFresh (fun _ => none) t = ⟨ls, o, []⟩)
    (hmarks : ∀ l ∈ ls, l.isContinuation = false)
    (hclosed : ∀ l ∈ ls, l.kind = .string → l.IsClosed) {last : Lexeme}
    (hlast : (ls.filter (!·.isWhitespace)).getLast? = some last)
    (hsemantic : last.isSemantic = true) :
    ∃ front blanks, (∀ l ∈ front, l.isContinuation = false) ∧ front.getLast? = some last ∧
      blanks.all isBlank = true ∧
      ∀ s, StartsBlank s → Reads (t ++ s) front (blanks ++ s) := by
  obtain ⟨front, back, rfl, hback⟩ := exists_of_getLast?_filter hlast
  obtain ⟨blanks, hfront, hbehind⟩ := (reads_of_scanFresh hscan hmarks).exists_of_append
  have hblanks := hbehind.all_isBlank fun l hl => by simpa using hback l hl
  have hend : (front ++ [last]).getLast? = some last := List.getLast?_concat
  refine ⟨front ++ [last], blanks, ?_, hend, hblanks, fun s hs => ?_⟩
  · intro l hl
    exact hmarks l (List.mem_append_left back hl)
  · exact hfront.before_blanks hblanks hs hend hsemantic (hclosed last (by simp))

end Line

end FreeForm
