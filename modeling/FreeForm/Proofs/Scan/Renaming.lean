import FreeForm.Proofs.Scan.DirectiveLine

namespace FreeForm

/-!
# Names that are replaced while a line is scanned

A replacement takes the place of a name and nothing else: where lexemes start, where scanning stops
and which string stays open are as without it. To tell which names are offered for replacement, the
scan is also written with a hook that may have effects of its own, so that what it is asked can be
recorded. It is asked for each name of the line once, in order, and for nothing else.
-/

open Lexeme

namespace Line

theorem renameLexeme_of_ne (rename : Text → Option Text) {l : Lexeme} (h : l.kind ≠ .name) :
    renameLexeme rename l = l :=
  if_neg h

/-- The lexemes that a line goes on with a string with: indentation and mark, and the string. -/
def carriedLexemes (delimiter : Char) (t : Text) : List Lexeme :=
  (resumption t).1 ++
    [(Piece.ofQuotation delimiter (readQuotation delimiter (resumption t).2)).lexeme].filter
      (!·.text.isEmpty)

theorem kind_ne_name_of_mem_carriedLexemes {delimiter : Char} {t : Text} {l : Lexeme}
    (h : l ∈ carriedLexemes delimiter t) : l.kind ≠ .name := by
  intro hname
  rcases List.mem_append.mp h with h | h
  · rcases mem_resumption h with rfl | rfl <;> cases hname
  · rw [List.mem_singleton.mp (List.mem_filter.mp h).1] at hname
    cases hname

/-- A scan with its names replaced. -/
def Scan.renamed (rename : Text → Option Text) (s : Scan) : Scan :=
  { s with lexemes := s.lexemes.map (renameLexeme rename) }

theorem Scan.renamed_after (rename : Text → Option Text) (ls : List Lexeme) (o : Option Char)
    (s : Scan) :
    (s.after ls o).renamed rename = (s.renamed rename).after (ls.map (renameLexeme rename)) o := by
  simp [renamed, after]

section Rename

variable (rename : Text → Option Text)

theorem scanFresh_renamed (t : Text) :
    scanFresh rename t = (scanFresh (fun _ => none) t).renamed rename := by
  fun_induction scanFresh rename t with
  | case1 t h =>
      rw [scanFresh_of_none h]
      rfl
  | case2 t p h ih =>
      rw [scanFresh_of_first? h, Scan.renamed_after, ih]
      rfl

theorem scan_renamed (carried : Option Char) (t : Text) :
    scan rename carried t = (scan (fun _ => none) carried t).renamed rename := by
  cases carried with
  | none => exact scanFresh_renamed rename t
  | some delimiter =>
      have hcarried : (carriedLexemes delimiter t).map (renameLexeme rename) =
          carriedLexemes delimiter t :=
        (List.map_congr_left fun l hl =>
          renameLexeme_of_ne rename (kind_ne_name_of_mem_carriedLexemes hl)).trans (List.map_id _)
      simp only [scan, scanCarried, scanFresh_renamed rename]
      split
      · rfl
      · rw [Scan.renamed_after]
        exact congrArg (fun ls => Scan.after ls _ _) hcarried.symm

end Rename

section Hook

variable {m : Type → Type} [Monad m] (hook : Text → m (Option Text))

/-- Asks a hook about a lexeme, if it is a name. -/
def offer (l : Lexeme) : m Lexeme :=
  if l.kind = .name then do
    let replacement ← hook l.text
    pure { l with text := replacement.getD l.text }
  else pure l

/-- Scans a text that does not start inside a string, with a hook that is asked about each name as
soon as it is read. -/
def offerFresh (t : Text) : m Scan :=
  match _h : Piece.first? t with
  | none => pure ⟨[], none, t⟩
  | some p => do
      let l ← offer hook p.lexeme
      let s ← offerFresh p.rest
      pure (s.after [l] p.opened)
termination_by t.length
decreasing_by exact Piece.length_rest_lt _h

def offerCarried (delimiter : Char) (t : Text) : m Scan :=
  if isBlankOrComment t then do
    let s ← offerFresh hook t
    pure { s with openDelimiter := some delimiter }
  else do
    let p := Piece.ofQuotation delimiter (readQuotation delimiter (resumption t).2)
    let s ← offerFresh hook p.rest
    pure (s.after (carriedLexemes delimiter t) p.opened)

def offerScan (carried : Option Char) (t : Text) : m Scan :=
  match carried with
  | none => offerFresh hook t
  | some delimiter => offerCarried hook delimiter t

variable [LawfulMonad m]

theorem offerFresh_eq (t : Text) :
    offerFresh hook t = (scanFresh (fun _ => none) t).lexemes.mapM (offer hook) >>= fun ls =>
      pure { scanFresh (fun _ => none) t with lexemes := ls } := by
  fun_induction offerFresh hook t with
  | case1 t h => simp [scanFresh_of_none h]
  | case2 t p h ih =>
      rw [ih]
      simp [scanFresh_of_first? h, Scan.after]

theorem mapM_offer_of_ne {ls : List Lexeme} (h : ∀ l ∈ ls, l.kind ≠ .name) :
    ls.mapM (offer hook) = pure ls := by
  induction ls with
  | nil => rfl
  | cons l ls ih =>
      obtain ⟨hl, hls⟩ := List.forall_mem_cons.mp h
      have hoffer : offer hook l = pure l := if_neg hl
      simp [hoffer, ih hls]

/-- A hook is asked about the lexemes of a line in order, and its answers change nothing else. -/
theorem offerScan_eq (carried : Option Char) (t : Text) :
    offerScan hook carried t =
      (scan (fun _ => none) carried t).lexemes.mapM (offer hook) >>= fun ls =>
        pure { scan (fun _ => none) carried t with lexemes := ls } := by
  cases carried with
  | none => exact offerFresh_eq hook t
  | some delimiter =>
      have hcarried : (carriedLexemes delimiter t).mapM (offer hook) =
          pure (carriedLexemes delimiter t) :=
        mapM_offer_of_ne hook fun _ hl => kind_ne_name_of_mem_carriedLexemes hl
      simp only [offerScan, offerCarried, scan, scanCarried]
      split
      · simp [offerFresh_eq hook]
      · rw [← carriedLexemes]
        simp [offerFresh_eq hook, Scan.after, hcarried]

end Hook

/-- The names among some lexemes. -/
def names (ls : List Lexeme) : List Text :=
  (ls.filter (·.kind = .name)).map Lexeme.text

theorem names_append (ls ms : List Lexeme) : names (ls ++ ms) = names ls ++ names ms := by
  simp [names]

theorem names_singleton (l : Lexeme) : names [l] = if l.kind = .name then [l.text] else [] := by
  by_cases hl : l.kind = .name <;> simp [names, hl]

/-- A hook without effects that keeps a record of what it was asked. -/
def recording (rename : Text → Option Text) (name : Text) : StateM (List Text) (Option Text) := do
  modify (· ++ [name])
  pure (rename name)

theorem run_mapM_offer (rename : Text → Option Text) (ls : List Lexeme) (asked : List Text) :
    (ls.mapM (offer (recording rename))).run asked =
      (ls.map (renameLexeme rename), asked ++ names ls) := by
  induction ls generalizing asked with
  | nil => exact congrArg (Prod.mk []) (List.append_nil asked).symm
  | cons l ls ih =>
      have hoffer : (offer (recording rename) l).run asked =
          (renameLexeme rename l, asked ++ names [l]) := by
        by_cases hl : l.kind = .name
        · rw [offer, renameLexeme, if_pos hl, if_pos hl, names_singleton, if_pos hl]
          rfl
        · rw [offer, renameLexeme, if_neg hl, if_neg hl, names_singleton, if_neg hl,
            List.append_nil]
          rfl
      have hnames : names (l :: ls) = names [l] ++ names ls := names_append [l] ls
      rw [List.mapM_cons, StateT.run_bind, hoffer]
      simp only [StateT.run_bind, ih, hnames, ← List.append_assoc]
      rfl

end Line

/-- Scans one line with a hook that is asked about each name. -/
def offerLine {m : Type → Type} [Monad m] (hook : Text → m (Option Text)) (carried : Option Char)
    (line : Text) : m (Except LexError ScannedLine) := do
  let s ← Line.offerScan hook carried (Line.body line)
  pure (ScannedLine.ofScan line s)

/-- A scanned line with its names replaced. -/
def ScannedLine.renamed (rename : Text → Option Text) (s : ScannedLine) : ScannedLine :=
  { s with lexemes := s.lexemes.map (Line.renameLexeme rename) }

theorem ScannedLine.ofScan_renamed (rename : Text → Option Text) (line : Text) (s : Line.Scan) :
    ofScan line (s.renamed rename) = (ofScan line s).map (renamed rename) := by
  obtain ⟨lexemes, opened, rest⟩ := s
  cases rest with
  | nil =>
      have hend : Line.renameLexeme rename ⟨.lineEnd, Line.terminator line⟩ =
          ⟨.lineEnd, Line.terminator line⟩ :=
        Line.renameLexeme_of_ne rename Lexeme.Kind.noConfusion
      simp [ofScan, Line.Scan.renamed, renamed, Except.map, hend]
  | cons c rest => rfl

theorem names_of_scanLine {carried : Option Char} {line : Text} {s : ScannedLine}
    (h : scanLine carried line = .ok s) :
    Line.names (Line.scan (fun _ => none) carried (Line.body line)).lexemes =
      Line.names s.lexemes := by
  rw [(scanLine_eq_ok h).2, Line.names_append]
  exact (List.append_nil _).symm

/-- Replacing names changes the texts of the names of a line and nothing else: the line scans or
fails as it does without, with the same error and the same string left open. A hook is asked about
the names of the line, as they stand in it and in order, and about nothing else. -/
theorem scanLineWith_renames (rename : Text → Option Text) (carried : Option Char) (line : Text) :
    scanLineWith rename carried line =
        (scanLine carried line).map (ScannedLine.renamed rename) ∧
      (∀ asked, (offerLine (Line.recording rename) carried line).run asked =
        (scanLineWith rename carried line,
          asked ++ Line.names (Line.scan (fun _ => none) carried (Line.body line)).lexemes)) ∧
      ∀ s, scanLine carried line = .ok s →
        Line.names (Line.scan (fun _ => none) carried (Line.body line)).lexemes =
          Line.names s.lexemes := by
  refine ⟨?_, fun asked => ?_, fun s hs => names_of_scanLine hs⟩
  · rw [scanLineWith, Line.scan_renamed rename, ScannedLine.ofScan_renamed]
    rfl
  · rw [offerLine, Line.offerScan_eq]
    simp only [StateT.run_bind, Line.run_mapM_offer]
    rw [scanLineWith, Line.scan_renamed rename]
    rfl

end FreeForm
