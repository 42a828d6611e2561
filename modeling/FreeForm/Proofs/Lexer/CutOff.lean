import FreeForm.Proofs.Lexer.Values
import FreeForm.Proofs.Scan.LineRest

namespace FreeForm

/-!
# Statements cut off within a token

A line that ends within a token leaves a draft whose newest token is only a part of it. The next
line starts with a continuation mark; the lexeme behind that mark is joined with the newest token, or
it becomes a token of its own.
-/

open Lexeme Line

namespace Draft

/-- A draft with some more tokens, cut off by a continuation mark at the end of the line. -/
def cutOff (d : Draft) (ls : List Lexeme) : Draft :=
  ((ls.map Token.ofLexeme).foldl addToken d).addLiminals [Continuation.mark, ['\n']]

theorem bare_cutOff (d : Draft) (ls : List Lexeme) :
    (d.cutOff ls).bare = d.bare ++ ls.map Token.ofLexeme := by
  rw [cutOff, bare_addLiminals, bare_foldl_addToken, List.map_map]
  rfl

theorem values_cutOff (d : Draft) (ls : List Lexeme) :
    (d.cutOff ls).values = d.values ++ ls.map Lexeme.text := by
  rw [values, bare_cutOff, List.map_append, List.map_map]
  rfl

end Draft

namespace Lexer

theorem takeOn_cutOff {r : Reader} (hr : r.macros = .empty) (d : Draft) {ls : List Lexeme}
    (hls : ∀ l ∈ ls, l.role = .semantic) :
    takeOn r d (ls ++ [marker, ⟨.lineEnd, ['\n']⟩]) = ⟨[], .ok (.building (d.cutOff ls)), []⟩ := by
  induction ls generalizing d with
  | nil => exact takeOn_mark d rfl _
  | cons l ls ih =>
      rw [List.cons_append, takeOn_semantic hr d (hls l List.mem_cons_self)]
      exact ih (d.addToken (.ofLexeme l)) fun m hm => hls m (List.mem_cons_of_mem l hm)

/-- What the lexeme behind a leading continuation mark makes of the tokens so far: it is one more,
or the newest is joined with it. -/
theorem values_of_marked {r : Reader} (hr : r.macros = .empty) {d : Draft} {l : Lexeme}
    (hl : l.role = .semantic) {ls : List Lexeme} {vs : List (List Text)}
    (h : (takeContent r d (marker :: l :: ls)).values = .ok vs) :
    (∃ more ss, vs = (d.values ++ l.text :: more) :: ss) ∨
      ∃ front x m e o more ss, d.values = front ++ [x] ∧
        scanLine none (x ++ l.text ++ ['\n']) = .ok ⟨[m, e], o⟩ ∧
        vs = (front ++ m.text :: more) :: ss := by
  rw [takeContent_eq_takeOn] at h
  cases hresume : d.resume (marker :: l :: ls) with
  | error e =>
      rw [hresume] at h
      cases h
  | ok resumed =>
      obtain ⟨d', rest, joined⟩ := resumed
      rw [hresume, Taking.values_prepend] at h
      rcases Draft.resume_cases hresume with
        ⟨previous, older, fragment, merged, htokens, hrest, hmerged, hd', _⟩ | ⟨rfl, rfl, _⟩
      · right
        obtain ⟨_, _, m, e, o, hscan, hform⟩ := Continuation.rejoin_eq_some hmerged
        obtain ⟨rfl, rfl⟩ := List.cons.inj hrest
        have hjoined : d'.tokens = merged :: older := congrArg Draft.tokens hd'
        have hne : d'.tokens ≠ [] := by
          rw [hjoined]
          exact List.cons_ne_nil merged older
        have hvalue : merged.value = m.text := by
          rw [hform]
          rfl
        obtain ⟨more, ss, hvalues⟩ := exists_values_takeOn r hne ls
        rw [hvalues, Draft.values_of_tokens hjoined, List.append_assoc, hvalue] at h
        exact ⟨_, _, m, e, o, more, ss, Draft.values_of_tokens htokens, hscan,
          (Except.ok.inj h).symm⟩
      · left
        change (takeOn r (d.addLiminals [marker.text]) (l :: ls)).values.map _ = _ at h
        rw [takeOn_semantic hr _ hl] at h
        obtain ⟨more, ss, hvalues⟩ := exists_values_takeOn r
          ((d.addLiminals [marker.text]).tokens_addToken_ne_nil (.ofLexeme l)) ls
        rw [hvalues, Draft.values_addToken, List.append_assoc] at h
        exact ⟨more, ss, (Except.ok.inj h).symm⟩

/-- A token joined again goes on like the undivided one. -/
theorem takeOn_alike_joined {r r' : Reader} (hr : r.macros = r'.macros) (d : Draft)
    {l fragment w e : Lexeme} (hfragment : fragment.isSemantic = true) {o : Option Char}
    (hscan : scanLine none (l.text ++ fragment.text ++ ['\n']) = .ok ⟨[w, e], o⟩)
    (rest : List Lexeme) :
    (takeOn r (d.addToken (.ofLexeme w)) rest).Alike
      (takeContent r' (d.cutOff [l]) (marker :: fragment :: rest)) := by
  have hcut : (d.cutOff [l]).liminals.head? = some Continuation.mark := by
    simp [Draft.cutOff, Draft.addLiminals]
  have hmark : marker.isContinuation = true := rfl
  obtain ⟨d', joined, hresume, hd', hliminals⟩ :=
    Draft.exists_resume_joined (d.bare_cutOff [l]) hcut hmark hfragment hscan rest
  rw [takeContent_eq_takeOn, hresume]
  have halike : (d.addToken (.ofLexeme w)).Alike d' := by
    constructor
    · rw [hd', Draft.bare_addToken]
      rfl
    · intro _
      rw [hliminals, Draft.liminals_addToken]
      exact .refl []
  have hnone : ([] : List Statement).map Statement.bare = [].map Statement.bare := rfl
  exact (takeOn_alike hr halike rest).prepend hnone [] joined

end Lexer

/-- A joined token is longer than the part that was cut off. -/
theorem exists_text_of_joined {x y : Text} (hy : y.head?.any isWordy = true) {m e : Lexeme}
    {o : Option Char} (h : scanLine none (x ++ y ++ ['\n']) = .ok ⟨[m, e], o⟩) :
    ∃ z, z ≠ [] ∧ m.text = x ++ z := by
  have htext := text_of_scanLine_feed h
  have hne : y ≠ [] := by
    rintro rfl
    cases hy
  split at htext
  · -- the carriage return is not all of the second part
    rename_i hlast
    obtain ⟨front, c, rfl⟩ := (List.eq_nil_or_concat y).resolve_left hne
    rw [List.concat_eq_append, ← List.append_assoc, List.getLast?_concat] at hlast
    cases hlast
    rw [List.concat_eq_append, ← List.append_assoc, List.dropLast_concat] at htext
    refine ⟨front, ?_, htext⟩
    rintro rfl
    cases hy
  · exact ⟨y, hne, htext⟩

/-- Where a token is cut off, what makes it whole again on the next line is the rest of it. -/
theorem text_of_joined {u v b : Text} (hv : v ≠ []) (hwordy : ∀ c ∈ v, isWordy c = true)
    {l : Lexeme} {ls after : List Lexeme} {o o' : Option Char}
    (hscan : scanLine none (v ++ b) = .ok ⟨l :: ls, o⟩) (hb : scanLine none b = .ok ⟨after, o'⟩)
    {m e : Lexeme} {o'' : Option Char}
    (hjoined : scanLine none (u ++ l.text ++ ['\n']) = .ok ⟨[m, e], o''⟩)
    (hm : m.text = u ++ v) : l.text = v := by
  have htext := text_of_scanLine_feed hjoined
  rw [hm] at htext
  split at htext
  · -- a carriage return would be left over where the undivided token ends
    rename_i hlast
    obtain ⟨front, hfront⟩ := List.getLast?_eq_some_iff.mp hlast
    rw [hfront, List.dropLast_concat] at htext
    rw [← htext, List.append_assoc] at hfront
    have hreturned : l.text = v ++ ['\r'] := List.append_cancel_left hfront
    obtain ⟨_, _, rest, _, _, hbody, _⟩ := scanLine_wordy (any_head?_append hv hwordy b) hscan
    have hcut : body (v ++ b) = v ++ '\r' :: body rest := by
      rw [hbody, hreturned, List.append_assoc]
      rfl
    obtain ⟨hreturn, _⟩ := body_of_append hcut
    obtain ⟨_, hfresh, _⟩ := scanLine_none_eq_ok.mp hb
    rw [hreturn, scanFresh_of_none rfl] at hfresh
    cases hfresh
  · exact (List.append_cancel_left htext).symm

end FreeForm
