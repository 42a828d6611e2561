import FreeForm.Proofs.Draft.Source

namespace FreeForm

/-!
# Tokens without their surroundings

A bare token has a value, a kind and a provenance, but neither liminal text nor the spelling it had
across a line break. What a draft does to its bare tokens depends on nothing else but the liminal
text behind the newest one, and only when it asks whether that token is continued.
-/

def Token.bare (t : Token) : Token :=
  { t with head := [], tail := [], split := none }

namespace Token

@[simp] theorem bare_addTail (t : Token) (liminals : List Text) :
    (t.addTail liminals).bare = t.bare := rfl

@[simp] theorem bare_addHead (t : Token) (liminals : List Text) :
    (t.addHead liminals).bare = t.bare := rfl

@[simp] theorem bare_ofLexeme (l : Lexeme) : (ofLexeme l).bare = ofLexeme l := rfl

theorem map_bare_expansion (name : Text) (body : List Lexeme) :
    (expansion name body).map bare = expansion name body := by
  cases body with
  | nil => rfl
  | cons l ls =>
      simp only [expansion, List.map_cons, List.map_map]
      rfl

end Token

def Statement.bare (s : Statement) : List Token :=
  s.tokens.map Token.bare

namespace Statement

theorem map_bare_addTailTo (liminals : List Text) (ts : List Token) :
    (addTailTo liminals ts).map Token.bare = ts.map Token.bare := by
  fun_induction addTailTo liminals ts with
  | case1 => rfl
  | case2 t => rfl
  | case3 t u ts ih =>
      rw [List.map_cons, ih]
      rfl

@[simp] theorem bare_addTail (s : Statement) (liminals : List Text) :
    (s.addTail liminals).bare = s.bare :=
  map_bare_addTailTo liminals s.tokens

end Statement

namespace Draft

/-- The bare tokens of a draft in the order of the source. -/
def bare (d : Draft) : List Token :=
  d.tokens.reverse.map Token.bare

@[simp] theorem bare_ofLiminals (liminals : List Text) : (ofLiminals liminals).bare = [] := rfl

@[simp] theorem bare_addLiminals (d : Draft) (liminals : List Text) :
    (d.addLiminals liminals).bare = d.bare := rfl

@[simp] theorem bare_addToken (d : Draft) (t : Token) :
    (d.addToken t).bare = d.bare ++ [t.bare] := by
  unfold addToken
  split
  · rename_i htokens
    simp [bare, htokens]
  · rename_i newest older htokens
    simp [bare, htokens]

theorem tokens_addToken_ne_nil (d : Draft) (t : Token) : (d.addToken t).tokens ≠ [] := by
  unfold addToken
  split <;> exact List.cons_ne_nil _ _

theorem bare_foldl_addToken (d : Draft) (ts : List Token) :
    (ts.foldl addToken d).bare = d.bare ++ ts.map Token.bare := by
  induction ts generalizing d with
  | nil => simp
  | cons t ts ih => simp [ih]

theorem bare_of_tokens {d : Draft} {newest : Token} {older : List Token}
    (h : d.tokens = newest :: older) :
    d.bare = older.reverse.map Token.bare ++ [newest.bare] := by
  simp [bare, h]

theorem bare_eq_nil {d : Draft} : d.bare = [] ↔ d.tokens = [] := by
  simp [bare]

theorem statement?_eq_none {d : Draft} : d.statement? = none ↔ d.bare = [] := by
  rw [bare_eq_nil]
  unfold statement?
  split
  · rename_i htokens
    simp [htokens]
  · rename_i newest older htokens
    have hne : (newest.addTail d.liminals :: older).reverse ≠ [] := by simp
    obtain ⟨t, ts, hts⟩ := List.exists_cons_of_ne_nil hne
    simp [htokens, hts, Statement.ofTokens?]

theorem statement?_eq_none_iff_tokens {d : Draft} : d.statement? = none ↔ d.tokens = [] := by
  rw [statement?_eq_none, bare_eq_nil]

theorem bare_of_statement? {d : Draft} {s : Statement} (h : d.statement? = some s) :
    s.bare = d.bare := by
  unfold statement? at h
  split at h
  · cases h
  · rename_i newest older htokens
    unfold Statement.ofTokens? at h
    split at h
    · cases h
    · rename_i t ts hts
      cases h
      simp only [Statement.bare]
      rw [← hts]
      simp [bare, htokens]

/-- A draft that holds a token can be completed. -/
theorem exists_statement? {d : Draft} (h : d.tokens ≠ []) :
    ∃ s, d.statement? = some s ∧ s.bare = d.bare := by
  obtain ⟨s, hs⟩ : ∃ s, d.statement? = some s :=
    Option.ne_none_iff_exists'.mp fun hnone => h (statement?_eq_none_iff_tokens.mp hnone)
  exact ⟨s, hs, bare_of_statement? hs⟩

/-- The newest token is joined with the lexeme behind a leading continuation mark, if it is cut off by
a mark too and both together scan as one lexeme. -/
theorem exists_resume_joined {d : Draft} {front : List Token} {l : Lexeme}
    (hd : d.bare = front ++ [.ofLexeme l])
    (hcut : d.liminals.head? = some Continuation.mark) {mark fragment w e : Lexeme}
    (hmark : mark.isContinuation = true) (hfragment : fragment.isSemantic = true)
    {o : Option Char}
    (hscan : scanLine none (l.text ++ fragment.text ++ ['\n']) = .ok ⟨[w, e], o⟩)
    (rest : List Lexeme) :
    ∃ d' joined, d.resume (mark :: fragment :: rest) = .ok (d', rest, joined) ∧
      d'.bare = front ++ [.ofLexeme w] ∧ d'.liminals = [] := by
  cases htokens : d.tokens with
  | nil =>
      rw [bare_eq_nil.mpr htokens] at hd
      simp at hd
  | cons previous older =>
      rw [bare_of_tokens htokens] at hd
      obtain ⟨holder, hprevious⟩ := List.append_inj' hd rfl
      have hbare : previous.bare = .ofLexeme l := List.singleton_inj.mp hprevious
      have hvalue : previous.value = l.text := congrArg Token.value hbare
      have hwritten : previous.provenance = .written := congrArg Token.provenance hbare
      have hadjacent : Continuation.isAdjacent d.liminals true = true := by
        simp [Continuation.isAdjacent, hcut]
      have hguard : (previous.isExpanded || !fragment.isSemantic ||
          !Continuation.isAdjacent d.liminals true) = false := by
        rw [hadjacent, hfragment, Token.isExpanded, hwritten]
        rfl
      obtain ⟨merged, hmerged, hmergedBare⟩ :
          ∃ merged, Continuation.rejoin previous d.liminals true fragment = .ok (some merged) ∧
            merged.bare = .ofLexeme w := by
        unfold Continuation.rejoin
        rw [hguard, hvalue, hscan]
        exact ⟨_, rfl, rfl⟩
      refine ⟨⟨merged :: older, []⟩, [.rejoined merged.value], ?_, ?_, rfl⟩
      · unfold resume
        simp [splitMark, hmark, htokens, hmerged]
      · rw [bare_of_tokens rfl, hmergedBare, holder]

end Draft

end FreeForm
