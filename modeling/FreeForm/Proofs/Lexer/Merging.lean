import FreeForm.Lexing
import FreeForm.Proofs.Draft.Source
import FreeForm.Proofs.Scan.DirectiveLine
import FreeForm.Proofs.Scan.LineRest

namespace FreeForm

/-!
# The content of a joined token

The value of a joined token is what a scan of both halves reads, with a line feed put behind them.
The scan gives every character back, but for a carriage return at the end of the second half: with
the line feed it makes a line end, which is no part of the lexeme.
-/

namespace Line

theorem body_eq_self_iff {t : Text} : body t = t ↔ t.getLast? ≠ some '\n' := by
  refine ⟨fun hbody hlast => ?_, body_of_getLast?⟩
  obtain ⟨front, rfl⟩ := List.getLast?_eq_some_iff.mp hlast
  have hshort : (body (front ++ ['\n'])).length ≤ front.length := by
    rw [body_append_feed]
    split
    · exact (List.dropLast_sublist front).length_le
    · exact le_rfl
  rw [hbody, List.length_append, List.length_singleton] at hshort
  omega

/-- A lexeme that is all the content of some line is a line of its own, unless its own last
character ends the line. -/
theorem scanLine_alone_iff {m : Lexeme} {o : Option Char}
    (h : scanFresh (fun _ => none) m.text = ⟨[m], o, []⟩) :
    (∃ opened, scanLine none m.text = .ok ⟨[m, ⟨.lineEnd, []⟩], opened⟩) ↔
      m.text.getLast? ≠ some '\n' := by
  constructor
  · rintro ⟨opened, hscan⟩
    obtain ⟨_, htext, _⟩ := scanFresh_of_scanLine_pair hscan
    exact body_eq_self_iff.mp htext.symm
  · intro hlast
    refine ⟨o, scanLine_none_eq_ok.mpr ⟨[m], ?_, ?_⟩⟩
    · rw [body_of_getLast? hlast, h]
    · rw [terminator_of_getLast? hlast, List.singleton_append]

end Line

namespace Continuation

variable {previous merged : Token} {liminals : List Text} {marked : Bool} {fragment : Lexeme}

theorem value_of_rejoin (h : rejoin previous liminals marked fragment = .ok (some merged)) :
    merged.value =
      if (previous.value ++ fragment.text).getLast? = some '\r' then
        (previous.value ++ fragment.text).dropLast
      else previous.value ++ fragment.text := by
  obtain ⟨_, _, l, _, _, hscan, rfl⟩ := rejoin_eq_some h
  exact Line.text_of_scanLine_feed hscan

/-- A joined token is a lexeme of its kind that nothing is left behind. -/
theorem exists_scanFresh_of_rejoin
    (h : rejoin previous liminals marked fragment = .ok (some merged)) :
    ∃ opened, Line.scanFresh (fun _ => none) merged.value =
      ⟨[⟨merged.kind, merged.value⟩], opened, []⟩ := by
  obtain ⟨_, _, l, _, opened, hscan, rfl⟩ := rejoin_eq_some h
  obtain ⟨hfresh, hvalue, _⟩ := Line.scanFresh_of_scanLine_pair hscan
  rw [← hvalue] at hfresh
  exact ⟨opened, hfresh⟩

/-- Joining keeps what stands in front of the first half and spells both halves with all that
stands between them. The value puts the halves together, but for a carriage return at their end,
and it scans as a lexeme of its kind by itself unless a line feed ends it. -/
theorem merged_of_rejoin
    (h : rejoin previous liminals marked fragment = .ok (some merged)) :
    (merged.value =
      if (previous.value ++ fragment.text).getLast? = some '\r' then
        (previous.value ++ fragment.text).dropLast
      else previous.value ++ fragment.text) ∧
    merged.split = some (previous.spelling ++ liminals.flatten ++
      (if marked then [Lexeme.continuationMark] else []) ++ fragment.text) ∧
    merged.head = previous.head ∧ merged.tail = [] ∧
    merged.isExpanded = false ∧ merged.macroName? = none ∧
    ((∃ opened, scanLine none merged.value =
        .ok ⟨[⟨merged.kind, merged.value⟩, ⟨.lineEnd, []⟩], opened⟩) ↔
      merged.value.getLast? ≠ some '\n') := by
  have hvalue := value_of_rejoin h
  obtain ⟨opened, hfresh⟩ := exists_scanFresh_of_rejoin h
  have halone := Line.scanLine_alone_iff (m := ⟨merged.kind, merged.value⟩) hfresh
  obtain ⟨_, _, _, _, _, _, rfl⟩ := rejoin_eq_some h
  exact ⟨hvalue, rfl, rfl, rfl, rfl, rfl, halone⟩

/-- The halves of a literal that is still open, the first of them joined before. -/
theorem merged_of_rejoin_again :
    let previous : Token :=
      { value := "'ab".toList, kind := .string, head := [" ".toList],
        split := some "'a&\n&b".toList }
    let merged : Token :=
      { value := "'abc d".toList, kind := .string, head := [" ".toList],
        split := some "'a&\n&b& ! c\n  &c d".toList }
    let liminals := ["&".toList, " ".toList, "! c".toList, "\n".toList, "  ".toList]
    rejoin previous liminals true ⟨.string, "c d".toList⟩ = .ok (some merged) ∧
      merged.value = previous.value ++ "c d".toList ∧
      merged.split = some (previous.spelling ++ liminals.flatten ++ "&".toList ++ "c d".toList) ∧
      merged.head = previous.head ∧
      ∃ opened, scanLine none merged.value =
        .ok ⟨[⟨.string, merged.value⟩, ⟨.lineEnd, []⟩], opened⟩ := by
  intro previous merged liminals
  have hjoin : rejoin previous liminals true ⟨.string, "c d".toList⟩ = .ok (some merged) := by
    decide +kernel
  obtain ⟨hvalue, hsplit, hhead, _, _, _, hscan⟩ := merged_of_rejoin hjoin
  rw [if_neg (by decide)] at hvalue
  exact ⟨hjoin, hvalue, hsplit, hhead, hscan.mpr (by decide)⟩

/-- A carriage return at the end of the second half is kept in the spelling, but not in the value;
the third part of the literal is joined to what is left. -/
theorem merged_of_carriage_return :
    rejoin { value := "'a".toList, kind := .string } ["&".toList, "\n".toList] true
        ⟨.string, "b\r".toList⟩ =
      .ok (some
        { value := "'ab".toList, kind := .string, split := some "'a&\n&b\r".toList }) ∧
    "'ab".toList ≠ "'a".toList ++ "b\r".toList ∧
    tokenize .none "x = 'a&\n&b\r&\n&c'\n".toList =
      .ok [["x".toList, "=".toList, "'abc'".toList]] := by
  decide +kernel

end Continuation

end FreeForm
