import FreeForm.Proofs.Scan.BeforeBlank
import FreeForm.Proofs.Scan.FirstFault
import FreeForm.Proofs.Scan.FirstToken
import FreeForm.Proofs.Scan.Shapes

namespace FreeForm

/-!
# A plain text in front of a separator

A text without line ends, quotes and marks scans to tokens, blanks and separators, none of which
reaches beyond a separator behind the text. So the rest of the line behind that separator is scanned
as it would be on a line of its own.
-/

open Lexeme

/-- A text without line ends, quotes, comment marks and continuation marks. -/
def IsPlain (t : Text) : Prop :=
  ∀ c ∈ t, c ∉ ['\n', '\r', '\'', '"', '!', '#', '&']

theorem IsPlain.not_mem {t : Text} (h : IsPlain t) {c : Char}
    (hc : c ∈ ['\n', '\r', '\'', '"', '!', '#', '&']) : c ∉ t :=
  fun hmem => h c hmem hc

namespace Line

/-- The lexeme of a separator. -/
def separator : Lexeme := ⟨.separator, [';']⟩

theorem first?_separator (x : Text) : Piece.first? (';' :: x) = some ⟨separator, x, none⟩ := by
  cases x with
  | nil => rfl
  | cons d x =>
      have hpair : [';', d] ∉ pairs := by simp [pairs]
      have hpunctuation : Piece.ofPunctuation ';' (d :: x) = ⟨separator, d :: x, none⟩ := by
        simp only [Piece.ofPunctuation, if_neg hpair]
        rfl
      rw [← hpunctuation]
      rfl

/-- What ends a line behind a text without line ends and carriage returns ends the line. -/
theorem split_append_of_not_mem {t : Text} (hfeed : '\n' ∉ t) (hreturn : '\r' ∉ t) (u : Text) :
    split (t ++ u) = (t ++ body u, terminator u) := by
  induction t with
  | nil => rfl
  | cons c t ih =>
      obtain ⟨hc, hfeed⟩ : '\n' ≠ c ∧ '\n' ∉ t := by simpa using hfeed
      obtain ⟨hc', hreturn⟩ : '\r' ≠ c ∧ '\r' ∉ t := by simpa using hreturn
      rw [List.cons_append, split.eq_4, ih hfeed hreturn]
      · rfl
      · exact fun heq => absurd heq.symm hc
      · exact fun heq => absurd heq.symm hc'

section Plain

variable {t : Text} (ht : IsPlain t)
include ht

theorem kind_of_isPlain {ls : List Lexeme} {o : Option Char}
    (h : scanFresh (fun _ => none) t = ⟨ls, o, []⟩) {l : Lexeme} (hl : l ∈ ls) :
    l.kind ≠ .comment ∧ l.kind ≠ .string ∧ l.kind ≠ .continuation := by
  obtain ⟨before, after, rfl⟩ := List.append_of_mem hl
  obtain ⟨u, _, rfl, hu⟩ := exists_rest_of_scanFresh h
  obtain ⟨r, _, _, rfl, hfirst, hbehind⟩ := exists_of_scanFresh_cons hu
  have hplain : ∀ c ∈ l.text, c ∉ ['\n', '\r', '\'', '"', '!', '#', '&'] :=
    fun c hc => ht c (List.mem_append_right _ (List.mem_append_left r hc))
  have hshape := shape_of_first? (.inl rfl) hbehind hfirst
  generalize after ++ [⟨.lineEnd, []⟩] = behind at hshape
  cases hshape with
  | closed hq => rcases hq with rfl | rfl <;> simp at hplain
  | unterminated hq => rcases hq with rfl | rfl <;> simp at hplain
  | comment hc => rcases hc with rfl | rfl <;> simp at hplain
  | @single c _ hc =>
      have hmark : c ≠ continuationMark := by
        rintro rfl
        simp [continuationMark] at hplain
      dsimp only
      rw [punctuationKind, if_neg hmark]
      split <;> simp
  | _ => simp

theorem isContinuation_of_isPlain {ls : List Lexeme} {o : Option Char}
    (h : scanFresh (fun _ => none) t = ⟨ls, o, []⟩) {l : Lexeme} (hl : l ∈ ls) :
    l.isContinuation = false := by
  have hkind := (kind_of_isPlain ht h hl).2.2
  rw [Bool.eq_false_iff]
  intro hmark
  cases hcase : l.kind <;> simp_all [isContinuation, role, Kind.role]

/-- A plain text is read lexeme by lexeme in front of a separator, and alone. -/
theorem reads_of_isPlain {ls : List Lexeme} {o : Option Char}
    (h : scanFresh (fun _ => none) t = ⟨ls, o, []⟩) {s : Text}
    (hs : ∀ c ∈ s.head?, c = ';') : Reads (t ++ s) ls s := by
  have hmarks : ∀ l ∈ ls, l.isContinuation = false :=
    fun l hl => isContinuation_of_isPlain ht h hl
  refine (reads_of_scanFresh h hmarks).before_end ?_ fun l hl => ?_
  · intro c hc
    rw [hs c hc]
    decide
  · have hkind := kind_of_isPlain ht h (List.mem_of_getLast? hl)
    refine ⟨hkind.1, fun hstring => absurd hstring hkind.2.1, fun _ c hc => ?_⟩
    rw [hs c hc]
    rfl

theorem openDelimiter_of_isPlain {ls : List Lexeme} {o : Option Char}
    (h : scanFresh (fun _ => none) t = ⟨ls, o, []⟩) : o = none := by
  have hreads := reads_of_isPlain ht h (s := []) (by simp)
  rw [List.append_nil] at hreads
  rw [hreads.scanFresh, scanFresh_nil] at h
  exact (congrArg Scan.openDelimiter h).symm

theorem scanLine_ended {ls : List Lexeme} {o : Option Char}
    (h : scanFresh (fun _ => none) t = ⟨ls, o, []⟩) :
    scanLine none (t ++ ['\n']) = .ok ⟨ls ++ [⟨.lineEnd, ['\n']⟩], none⟩ := by
  obtain rfl := openDelimiter_of_isPlain ht h
  have hreturn : '\r' ∉ t := ht.not_mem (by decide)
  exact scanLine_append_feed (ht.not_mem (by decide))
    (fun hlast => hreturn (List.mem_of_getLast? hlast)) h

theorem split_separated (u : Text) :
    split (t ++ ';' :: u) = (t ++ ';' :: body u, terminator u) := by
  have hplain : IsPlain (t ++ [';']) := by
    intro c hc
    rcases List.mem_append.mp hc with hc | hc
    · exact ht c hc
    · rw [List.mem_singleton.mp hc]
      decide
  have hsplit := split_append_of_not_mem (hplain.not_mem (c := '\n') (by decide))
    (hplain.not_mem (c := '\r') (by decide)) u
  simpa using hsplit

theorem scanFresh_separated {ls : List Lexeme} {o : Option Char}
    (h : scanFresh (fun _ => none) t = ⟨ls, o, []⟩) (x : Text) :
    scanFresh (fun _ => none) (t ++ ';' :: x) =
      (scanFresh (fun _ => none) x).after (ls ++ [separator]) none := by
  have hreads := reads_of_isPlain ht h (s := ';' :: x) fun c hc => (Option.some.inj hc).symm
  rw [hreads.scanFresh, scanFresh_of_first? (first?_separator x)]
  simp [Scan.after]

/-- Behind a plain text and a separator a line scans like the line that stands there. -/
theorem scanLine_separated {ls : List Lexeme} {opened : Option Char}
    (h : scanFresh (fun _ => none) t = ⟨ls, opened, []⟩) (line : Text) :
    (∃ e f, scanLine none line = .error e ∧ scanLine none (t ++ ';' :: line) = .error f) ∨
      ∃ ms o, scanFresh (fun _ => none) (body line) = ⟨ms, o, []⟩ ∧
        scanLine none line = .ok ⟨ms ++ [⟨.lineEnd, terminator line⟩], o⟩ ∧
        scanLine none (t ++ ';' :: line) =
          .ok ⟨ls ++ separator :: (ms ++ [⟨.lineEnd, terminator line⟩]), o⟩ := by
  have hsplit := split_separated ht line
  have hown : scanLine none line =
      ScannedLine.ofScan line (scanFresh (fun _ => none) (body line)) := rfl
  have hwhole : scanLine none (t ++ ';' :: line) = ScannedLine.ofScan (t ++ ';' :: line)
      ((scanFresh (fun _ => none) (body line)).after (ls ++ [separator]) none) := by
    rw [← scanFresh_separated ht h]
    simp only [scanLine, scanLineWith, body, hsplit]
    rfl
  rw [hown, hwhole]
  generalize scanFresh (fun _ => none) (body line) = s
  obtain ⟨ms, o, rest⟩ := s
  cases rest with
  | nil =>
      refine .inr ⟨ms, o, rfl, rfl, ?_⟩
      simp [ScannedLine.ofScan, Scan.after, terminator, hsplit]
  | cons c rest => exact .inl ⟨_, _, rfl, rfl⟩

end Plain

/-- What does not scan does not scan in front of another text. -/
theorem rest_append_ne_nil {t : Text} (h : (scanFresh (fun _ => none) t).rest ≠ []) (x : Text) :
    (scanFresh (fun _ => none) (t ++ x)).rest ≠ [] := by
  obtain ⟨c, r, hrest⟩ := List.exists_cons_of_ne_nil h
  obtain ⟨ls, hreads, hc⟩ := exists_reads_of_rest hrest
  have hagain := hreads.front_again hc (s := c :: (r ++ x)) fun d hd => (Option.some.inj hd).symm
  rw [hreads.eq_append, List.append_assoc, List.cons_append, hagain.scanFresh,
    scanFresh_of_none (first?_eq_none_iff.mpr hc)]
  exact List.cons_ne_nil c (r ++ x)

/-- A line that starts with a text that does not scan does not scan. -/
theorem exists_error_of_rest {t : Text} (h : (scanFresh (fun _ => none) t).rest ≠ [])
    {line x : Text} (hline : body line = t ++ x) : ∃ e, scanLine none line = .error e := by
  have hrest := rest_append_ne_nil h x
  rw [← hline] at hrest
  have hscan : scanLine none line =
      ScannedLine.ofScan line (scanFresh (fun _ => none) (body line)) := rfl
  rw [hscan]
  generalize scanFresh (fun _ => none) (body line) = s at hrest
  obtain ⟨ms, o, rest⟩ := s
  cases rest with
  | nil => exact absurd rfl hrest
  | cons c rest => exact ⟨_, rfl⟩

end Line

end FreeForm
