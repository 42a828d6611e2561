import FreeForm.Source

namespace FreeForm

/-!
# Texts as bytes

The bytes that a text is encoded in decode to the text. A line feed is encoded by itself, and no
other character has its byte in its encoding: cutting the bytes of a text into lines cuts the text.
So a file that holds an encoded text is a source like the text itself.
-/

namespace Text

theorem ofUtf8?_toUtf8 (t : Text) : ofUtf8? (toUtf8 t) = some t := by
  have hbytes : (⟨(toUtf8 t).toArray⟩ : ByteArray) = t.utf8Encode := by
    apply ByteArray.ext
    simp [List.utf8Encode, toUtf8]
  have hdecoded : String.fromUTF8? t.utf8Encode = some (String.ofList t) := by
    have hvalid : t.utf8Encode.IsValidUTF8 := ByteArray.isValidUTF8_utf8Encode
    rw [String.fromUTF8?, dif_pos hvalid]
    apply congrArg some
    apply String.toByteArray_inj.mp
    rw [String.toByteArray_ofList]
    rfl
  rw [ofUtf8?, hbytes, hdecoded, Option.map_some, String.toList_ofList]

theorem toUtf8_of_ofUtf8? {bytes : List UInt8} {t : Text} (h : ofUtf8? bytes = some t) :
    toUtf8 t = bytes := by
  obtain ⟨s, hs, rfl⟩ := Option.map_eq_some_iff.mp h
  unfold String.fromUTF8? at hs
  split at hs
  · rename_i hvalid
    cases hs
    have hbytes := String.utf8Encode_toList (b := String.fromUTF8 ⟨bytes.toArray⟩ hvalid)
    have hlist := congrArg (fun b : ByteArray => b.data.toList) hbytes
    simpa [List.utf8Encode, toUtf8, String.fromUTF8] using hlist
  · cases hs

theorem toUtf8_append (s t : Text) : toUtf8 (s ++ t) = toUtf8 s ++ toUtf8 t :=
  List.flatMap_append

/-- The byte of a line feed encodes nothing else. -/
theorem lineFeed_not_mem_utf8EncodeChar {c : Char} (hc : c ≠ '\n') :
    Source.lineFeed ∉ String.utf8EncodeChar c := by
  have hbyte : ∀ n, Source.lineFeed = UInt8.ofNat n → n % 256 = 10 := by
    intro n h
    have hn := congrArg UInt8.toNat h
    rw [UInt8.toNat_ofNat'] at hn
    exact hn.symm
  intro hmem
  unfold String.utf8EncodeChar at hmem
  dsimp only at hmem
  split at hmem
  · rename_i hsmall
    have hten := hbyte _ (List.mem_singleton.mp hmem)
    apply hc
    apply Char.toNat_inj.mp
    change c.val.toNat = 10
    omega
  -- every byte of a longer encoding has its highest bit set
  · repeat' split at hmem
    all_goals simp only [List.mem_cons, List.not_mem_nil, or_false] at hmem
    · rcases hmem with h | h <;> have hten := hbyte _ h <;> omega
    · rcases hmem with h | h | h <;> have hten := hbyte _ h <;> omega
    · rcases hmem with h | h | h | h <;> have hten := hbyte _ h <;> omega

end Text

/-- What holds no separator belongs to the piece behind it. -/
theorem splitAfter_append_of_not_mem {α : Type} [DecidableEq α] {separator : α} {l : List α}
    (hne : l ≠ []) (hl : separator ∉ l) (m : List α) :
    splitAfter separator (l ++ m) =
      match splitAfter separator m with
      | [] => [l]
      | piece :: pieces => (l ++ piece) :: pieces := by
  induction l with
  | nil => exact absurd rfl hne
  | cons a l ih =>
      obtain ⟨ha, hl⟩ : separator ≠ a ∧ separator ∉ l := by simpa using hl
      rw [List.cons_append, splitAfter, if_neg (Ne.symm ha)]
      cases l with
      | nil => rfl
      | cons b l =>
          rw [ih (List.cons_ne_nil b l) hl]
          cases splitAfter separator m <;> rfl

namespace Source

/-- The lines of the bytes of a text are the bytes of its lines. -/
theorem splitAfter_toUtf8 (t : Text) :
    splitAfter lineFeed (Text.toUtf8 t) = t.lines.map Text.toUtf8 := by
  unfold Text.lines
  induction t with
  | nil => rfl
  | cons c t ih =>
      have hcons : Text.toUtf8 (c :: t) = String.utf8EncodeChar c ++ Text.toUtf8 t :=
        List.flatMap_cons
      rw [hcons]
      by_cases hc : c = '\n'
      · subst hc
        have hfeed : String.utf8EncodeChar '\n' = [lineFeed] := by decide
        rw [hfeed, List.singleton_append, splitAfter, if_pos rfl, ih, splitAfter, if_pos rfl,
          List.map_cons, ← hfeed]
        simp [Text.toUtf8]
      · rw [splitAfter_append_of_not_mem String.utf8EncodeChar_ne_nil
          (Text.lineFeed_not_mem_utf8EncodeChar hc), ih, splitAfter, if_neg hc]
        cases splitAfter '\n' t <;> simp [Text.toUtf8]

theorem decode_toUtf8 (lines : List Text) : decode (lines.map Text.toUtf8) = lines.map .ok := by
  induction lines with
  | nil => rfl
  | cons line lines ih =>
      rw [List.map_cons, decode, Text.ofUtf8?_toUtf8, List.map_cons, ← ih]

/-- A file with an encoded text in it is read as the text. -/
theorem ofBytes_toUtf8 (t : Text) : ofBytes (Text.toUtf8 t) = ofText t := by
  rw [ofBytes, splitAfter_toUtf8, decode_toUtf8, ofText]

end Source

end FreeForm
