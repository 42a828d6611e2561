import FreeForm.Proofs.Text.Encoding

namespace FreeForm

/-!
# Decoding line by line

Bytes are asked for one line at a time, and each line is decoded by itself. Since a line feed is
encoded by itself, the lines all decode just when the bytes do as a whole, and then they are the
lines of that text. Otherwise the lines in front of the first that does not decode are given, an
error for that one, and nothing more however often one asks.
-/

/-- The front of a list up to the first separator, and with it, and what stands behind. -/
def cutAfter {α : Type} [DecidableEq α] (separator : α) : List α → List α × List α
  | [] => ([], [])
  | a :: rest =>
      if a = separator then ([a], rest)
      else (a :: (cutAfter separator rest).1, (cutAfter separator rest).2)

theorem cutAfter_cons_ne_nil {α : Type} [DecidableEq α] (separator a : α) (rest : List α) :
    (cutAfter separator (a :: rest)).1 ≠ [] := by
  rw [cutAfter]
  split <;> exact List.cons_ne_nil _ _

/-- The first piece of a list is the front that is cut off. -/
theorem splitAfter_cons {α : Type} [DecidableEq α] (separator a : α) (rest : List α) :
    splitAfter separator (a :: rest) =
      (cutAfter separator (a :: rest)).1 :: splitAfter separator (cutAfter separator (a :: rest)).2 := by
  induction rest generalizing a with
  | nil => by_cases ha : a = separator <;> simp [splitAfter, cutAfter, ha]
  | cons b rest ih =>
      by_cases ha : a = separator
      · rw [splitAfter, cutAfter, if_pos ha, if_pos ha]
      · rw [splitAfter, cutAfter, if_neg ha, if_neg ha, ih b]

namespace Text

/-- The bytes that decode to a text are those that it is encoded in. -/
theorem ofUtf8?_eq_some_iff {bytes : List UInt8} {t : Text} :
    ofUtf8? bytes = some t ↔ toUtf8 t = bytes := by
  constructor
  · exact toUtf8_of_ofUtf8?
  · rintro rfl
    exact ofUtf8?_toUtf8 t

theorem flatMap_toUtf8 (ts : List Text) : ts.flatMap toUtf8 = toUtf8 ts.flatten := by
  induction ts with
  | nil => rfl
  | cons t ts ih => rw [List.flatMap_cons, List.flatten_cons, toUtf8_append, ih]

end Text

/-- Bytes that are read line by line. -/
structure LineReader where
  unread : List UInt8
  finished : Bool

namespace LineReader

def ofBytes (bytes : List UInt8) : LineReader := ⟨bytes, false⟩

/-- Asks for a line. There is none where no byte is left, and none behind an error. -/
def next (r : LineReader) : Option SourceLine × LineReader :=
  if r.finished then (none, r)
  else
    let (row, rest) := cutAfter Source.lineFeed r.unread
    if row = [] then (none, ⟨rest, true⟩)
    else
      match Text.ofUtf8? row with
      | some line => (some (.ok line), ⟨rest, false⟩)
      | none => (some (.error .invalidUtf8), ⟨rest, true⟩)

/-- What a request is answered with, the requests counted from zero. -/
def answer (r : LineReader) : Nat → Option SourceLine
  | 0 => r.next.1
  | n + 1 => answer r.next.2 n

theorem answer_of_finished {r : LineReader} (h : r.finished = true) (n : Nat) :
    r.answer n = none := by
  have hnext : r.next = (none, r) := if_pos h
  induction n with
  | zero => rw [answer, hnext]
  | succ n ih => rwa [answer, hnext]

theorem next_ofBytes_cons (b : UInt8) (rest : List UInt8) :
    (ofBytes (b :: rest)).next =
      match Text.ofUtf8? (cutAfter Source.lineFeed (b :: rest)).1 with
      | some line => (some (.ok line), ofBytes (cutAfter Source.lineFeed (b :: rest)).2)
      | none =>
          (some (.error .invalidUtf8), ⟨(cutAfter Source.lineFeed (b :: rest)).2, true⟩) := by
  have hne := cutAfter_cons_ne_nil Source.lineFeed b rest
  exact (if_neg Bool.false_ne_true).trans (if_neg hne)

/-- The answers are the lines that the bytes are decoded into, one after another. -/
theorem answer_ofBytes (bytes : List UInt8) (n : Nat) :
    (ofBytes bytes).answer n = (Source.ofBytes bytes)[n]? := by
  induction n generalizing bytes with
  | zero =>
      cases bytes with
      | nil => rfl
      | cons b rest =>
          rw [answer, next_ofBytes_cons, Source.ofBytes, splitAfter_cons, Source.decode]
          cases Text.ofUtf8? (cutAfter Source.lineFeed (b :: rest)).1 <;> rfl
  | succ n ih =>
      cases bytes with
      | nil => exact answer_of_finished rfl n
      | cons b rest =>
          rw [answer, next_ofBytes_cons, Source.ofBytes, splitAfter_cons, Source.decode]
          cases Text.ofUtf8? (cutAfter Source.lineFeed (b :: rest)).1 with
          | some line => exact ih _
          | none => exact answer_of_finished rfl n

end LineReader

namespace Source

/-- Rows of bytes are decoded to the end, or up to the first that does not decode. -/
theorem decode_cases (rows : List (List UInt8)) :
    (∃ lines : List Text, rows = lines.map Text.toUtf8 ∧ decode rows = lines.map .ok) ∨
      ∃ (lines : List Text) (row : List UInt8) (others : List (List UInt8)),
        rows = lines.map Text.toUtf8 ++ row :: others ∧ Text.ofUtf8? row = none ∧
          decode rows = lines.map .ok ++ [.error .invalidUtf8] := by
  induction rows with
  | nil => exact .inl ⟨[], rfl, rfl⟩
  | cons row rows ih =>
      rw [decode]
      cases hrow : Text.ofUtf8? row with
      | none => exact .inr ⟨[], row, rows, rfl, hrow, rfl⟩
      | some line =>
          have hline := Text.toUtf8_of_ofUtf8? hrow
          rcases ih with ⟨lines, hrows, hdecode⟩ | ⟨lines, bad, others, hrows, hbad, hdecode⟩
          · exact .inl ⟨line :: lines, by rw [hrows, ← hline]; rfl, by rw [hdecode]; rfl⟩
          · exact .inr ⟨line :: lines, bad, others, by rw [hrows, ← hline]; rfl, hbad,
              by rw [hdecode]; rfl⟩

end Source

namespace LineReader

variable {bytes : List UInt8}

/-- Valid bytes are given as the lines of the text that they encode, and none of them is lost. -/
theorem answer_of_ofUtf8? {t : Text} (h : Text.ofUtf8? bytes = some t) :
    (∀ n, (ofBytes bytes).answer n = t.lines[n]?.map .ok) ∧
      t.lines.flatMap Text.toUtf8 = bytes := by
  have hbytes := Text.toUtf8_of_ofUtf8? h
  constructor
  · intro n
    rw [answer_ofBytes, ← hbytes, Source.ofBytes_toUtf8, Source.ofText, List.getElem?_map]
  · rw [Text.flatMap_toUtf8, Text.lines_flatten, hbytes]

/-- Bytes that are not valid have a first row that is not, and an error is the last that is given. -/
theorem exists_row_of_ofUtf8?_eq_none (h : Text.ofUtf8? bytes = none) :
    ∃ (lines : List Text) (row : List UInt8) (others : List (List UInt8)),
      splitAfter Source.lineFeed bytes = lines.map Text.toUtf8 ++ row :: others ∧
      Text.ofUtf8? row = none ∧
      (∀ n, (ofBytes bytes).answer n = (lines.map .ok ++ [.error .invalidUtf8])[n]?) ∧
      lines.flatMap Text.toUtf8 <+: bytes := by
  have hflatten := splitAfter_flatten Source.lineFeed bytes
  rcases Source.decode_cases (splitAfter Source.lineFeed bytes) with
    ⟨lines, hrows, _⟩ | ⟨lines, row, others, hrows, hrow, hdecode⟩
  · -- rows that all decode are the rows of a text
    have hwhole : Text.ofUtf8? bytes = some lines.flatten := by
      rw [Text.ofUtf8?_eq_some_iff, ← Text.flatMap_toUtf8, List.flatMap_def, ← hrows, hflatten]
    rw [h] at hwhole
    cases hwhole
  · refine ⟨lines, row, others, hrows, hrow, fun n => ?_, row ++ others.flatten, ?_⟩
    · rw [answer_ofBytes, Source.ofBytes, hdecode]
    · rw [← hflatten, hrows, List.flatten_append, List.flatten_cons, List.flatMap_def]

/-- Bytes read line by line are lines of text and nothing else just when they are valid as a whole, and
then they are the lines of the text that they encode. Otherwise the lines in front of the first that
is not valid are given, then one error, and then nothing for ever. -/
theorem answer_lines_or_error (bytes : List UInt8) :
    ((∀ n line, (ofBytes bytes).answer n = some line → ∃ t, line = .ok t) ↔
      ∃ t, Text.ofUtf8? bytes = some t) ∧
    (∀ t, Text.ofUtf8? bytes = some t →
      (∀ n, (ofBytes bytes).answer n = t.lines[n]?.map .ok) ∧
        t.lines.flatMap Text.toUtf8 = bytes) ∧
    (Text.ofUtf8? bytes = none →
      ∃ (lines : List Text) (row : List UInt8) (others : List (List UInt8)),
        splitAfter Source.lineFeed bytes = lines.map Text.toUtf8 ++ row :: others ∧
        Text.ofUtf8? row = none ∧
        (∀ n, (ofBytes bytes).answer n = (lines.map .ok ++ [.error .invalidUtf8])[n]?) ∧
        lines.flatMap Text.toUtf8 <+: bytes) := by
  refine ⟨⟨fun hall => ?_, ?_⟩, fun t => answer_of_ofUtf8?, exists_row_of_ofUtf8?_eq_none⟩
  · cases hbytes : Text.ofUtf8? bytes with
    | some t => exact ⟨t, rfl⟩
    | none =>
        obtain ⟨lines, _, _, _, _, hanswer, _⟩ := exists_row_of_ofUtf8?_eq_none hbytes
        have herror : (ofBytes bytes).answer lines.length = some (.error .invalidUtf8) := by
          rw [hanswer, List.getElem?_append_right (by simp)]
          simp
        obtain ⟨t, ht⟩ := hall _ _ herror
        cases ht
  · rintro ⟨t, ht⟩ n line hline
    rw [(answer_of_ofUtf8? ht).1] at hline
    obtain ⟨u, _, rfl⟩ := Option.map_eq_some_iff.mp hline
    exact ⟨u, rfl⟩

end LineReader

end FreeForm
