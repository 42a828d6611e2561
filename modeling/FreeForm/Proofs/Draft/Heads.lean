import FreeForm.Proofs.Draft.Expansion

namespace FreeForm

/-!
# The heads of tokens

Liminal text belongs to the token in front of it. Only the first token of a statement has none in
front, and so takes the text as its head. What a draft takes moves no head: once it has a token, it
keeps the head of the first one, and gives none to the tokens behind.
-/

namespace Statement

/-- The liminal texts in front of each token that the token itself holds. -/
def heads (s : Statement) : List (List Text) :=
  s.tokens.map Token.head

/-- The liminal text in front of a statement. -/
def lead (s : Statement) : List Text :=
  s.heads.headD []

/-- No token but the first has a head. -/
def HeadFirst (s : Statement) : Prop :=
  ∀ head ∈ s.heads.tail, head = []

theorem map_head_addTailTo (liminals : List Text) (ts : List Token) :
    (addTailTo liminals ts).map Token.head = ts.map Token.head := by
  fun_induction addTailTo liminals ts with
  | case1 => rfl
  | case2 t => rfl
  | case3 t u ts ih => rw [List.map_cons, ih, ← List.map_cons]

@[simp] theorem heads_addTail (s : Statement) (liminals : List Text) :
    (s.addTail liminals).heads = s.heads :=
  map_head_addTailTo liminals s.tokens

@[simp] theorem lead_addTail (s : Statement) (liminals : List Text) :
    (s.addTail liminals).lead = s.lead := by
  rw [lead, heads_addTail, ← lead]

theorem HeadFirst.addTail {s : Statement} (h : s.HeadFirst) (liminals : List Text) :
    (s.addTail liminals).HeadFirst := by
  rwa [HeadFirst, heads_addTail]

theorem HeadFirst.heads_eq_nil {s : Statement} (h : s.HeadFirst) (hlead : s.lead = []) :
    ∀ head ∈ s.heads, head = [] := by
  unfold HeadFirst at h
  unfold lead at hlead
  cases hheads : s.heads with
  | nil => exact List.forall_mem_nil _
  | cons head heads =>
      rw [hheads] at h hlead
      exact List.forall_mem_cons.mpr ⟨hlead, h⟩

end Statement

namespace Draft

/-- The heads of the tokens of a draft, that of the newest token first. -/
def heads (d : Draft) : List (List Text) :=
  d.tokens.map Token.head

/-- The liminal text in front of the first token, whether or not it has been taken yet. -/
def lead (d : Draft) : List Text :=
  d.heads.getLastD d.liminals

/-- No token but the first has a head. -/
def HeadFirst (d : Draft) : Prop :=
  ∀ head ∈ d.heads.dropLast, head = []

/-- A draft has its first token, with a given text in front of it. -/
def Begun (lead : List Text) (d : Draft) : Prop :=
  d.tokens ≠ [] ∧ d.lead = lead

@[simp] theorem heads_addLiminals (d : Draft) (liminals : List Text) :
    (d.addLiminals liminals).heads = d.heads := rfl

theorem heads_addToken (d : Draft) {t : Token} (ht : t.head = []) :
    (d.addToken t).heads = if d.tokens = [] then [d.liminals] else [] :: d.heads := by
  unfold addToken
  split
  · rename_i htokens
    simp [heads, htokens, Token.addHead, ht]
  · rename_i newest older htokens
    simp [heads, htokens, Token.addTail, ht]

theorem heads_of_statement? {d : Draft} {s : Statement} (h : d.statement? = some s) :
    s.heads = d.heads.reverse := by
  unfold statement? at h
  split at h
  · cases h
  · rename_i newest older htokens
    unfold Statement.ofTokens? at h
    split at h
    · cases h
    · rename_i t ts hts
      cases h
      simp only [Statement.heads]
      rw [← hts]
      simp [heads, htokens, Token.addTail]

theorem lead_of_heads {d : Draft} {heads : List (List Text)} {head : List Text}
    (h : d.heads = heads ++ [head]) : d.lead = head := by
  simp [lead, h]

theorem exists_heads {d : Draft} (h : d.tokens ≠ []) : ∃ heads, d.heads = heads ++ [d.lead] := by
  have hne : d.heads ≠ [] := fun hnil => h (List.map_eq_nil_iff.mp hnil)
  obtain ⟨heads, head, hheads⟩ := (List.eq_nil_or_concat _).resolve_left hne
  rw [List.concat_eq_append] at hheads
  exact ⟨heads, by rw [lead_of_heads hheads, hheads]⟩

theorem lead_of_statement? {d : Draft} {s : Statement} (h : d.statement? = some s) :
    s.lead = d.lead := by
  have hne : d.tokens ≠ [] := by
    intro hnil
    rw [statement?_eq_none_iff_tokens.mpr hnil] at h
    cases h
  obtain ⟨heads, hheads⟩ := exists_heads hne
  rw [Statement.lead, heads_of_statement? h, hheads, List.reverse_append]
  rfl

theorem HeadFirst.of_statement? {d : Draft} {s : Statement} (h : d.HeadFirst)
    (hs : d.statement? = some s) : s.HeadFirst := by
  rw [Statement.HeadFirst, heads_of_statement? hs, List.tail_reverse]
  exact fun head hhead => h head (List.mem_reverse.mp hhead)

theorem headFirst_ofLiminals (liminals : List Text) : (ofLiminals liminals).HeadFirst :=
  List.forall_mem_nil _

theorem HeadFirst.addToken {d : Draft} (h : d.HeadFirst) {t : Token} (ht : t.head = []) :
    (d.addToken t).HeadFirst := by
  rw [HeadFirst, heads_addToken d ht]
  split
  · exact List.forall_mem_nil _
  · rename_i hne
    have hheads : d.heads ≠ [] := fun hnil => hne (List.map_eq_nil_iff.mp hnil)
    rw [List.dropLast_cons_of_ne_nil hheads]
    exact List.forall_mem_cons.mpr ⟨rfl, h⟩

theorem begun_addToken (d : Draft) {t : Token} (ht : t.head = []) :
    (d.addToken t).Begun d.lead := by
  refine ⟨tokens_addToken_ne_nil d t, ?_⟩
  have hadded := heads_addToken d ht
  split at hadded
  · rename_i htokens
    have hfirst : (d.addToken t).heads = [] ++ [d.liminals] := hadded
    rw [lead_of_heads hfirst]
    simp [lead, heads, htokens]
  · rename_i hne
    obtain ⟨heads, hheads⟩ := exists_heads hne
    have hfirst : (d.addToken t).heads = [] :: heads ++ [d.lead] := by rw [hadded, hheads]; rfl
    exact lead_of_heads hfirst

theorem Begun.addLiminals {d : Draft} {lead : List Text} (h : d.Begun lead)
    (liminals : List Text) : (d.addLiminals liminals).Begun lead := by
  obtain ⟨hne, rfl⟩ := h
  obtain ⟨heads, hheads⟩ := exists_heads hne
  exact ⟨hne, lead_of_heads hheads⟩

theorem Begun.addToken {d : Draft} {lead : List Text} (h : d.Begun lead) {t : Token}
    (ht : t.head = []) : (d.addToken t).Begun lead :=
  h.2 ▸ begun_addToken d ht

theorem head_of_mem_expansion {name : Text} {body : List Lexeme} {t : Token}
    (h : t ∈ Token.expansion name body) : t.head = [] := by
  cases body with
  | nil => cases h
  | cons l ls =>
      rcases List.mem_cons.mp h with rfl | h
      · rfl
      · obtain ⟨m, _, rfl⟩ := List.mem_map.mp h
        rfl

/-- What liminal text and tokens without a head keep, a lexeme keeps. -/
theorem addLexeme_induction {P : Draft → Prop}
    (hliminals : ∀ d liminals, P d → P (d.addLiminals liminals))
    (htoken : ∀ d t, t.head = [] → P d → P (d.addToken t)) (macros : MacroTable) {d : Draft}
    (h : P d) (l : Lexeme) : P (d.addLexeme macros l) := by
  have hall : ∀ (ts : List Token) (d : Draft), (∀ t ∈ ts, t.head = []) → P d →
      P (ts.foldl Draft.addToken d) := by
    intro ts
    induction ts with
    | nil => exact fun _ _ h => h
    | cons t ts ih =>
        intro d hts h
        obtain ⟨ht, hts⟩ := List.forall_mem_cons.mp hts
        exact ih (d.addToken t) hts (htoken d t ht h)
  unfold addLexeme
  split
  · exact htoken d _ rfl h
  · exact hliminals d _ h
  · exact hall _ d (fun t ht => head_of_mem_expansion ht) h

/-- A draft with a property is what lexemes are taken into, or what they close. -/
def Progress.Of (P : Draft → Prop) : Progress → Prop
  | .open d => P d
  | .closed s _ => ∃ d, P d ∧ d.statement? = some s

/-- What liminal text and tokens without a head keep, taking lexemes keeps. -/
theorem take_induction {P : Draft → Prop}
    (hliminals : ∀ d liminals, P d → P (d.addLiminals liminals))
    (htoken : ∀ d t, t.head = [] → P d → P (d.addToken t)) (macros : MacroTable)
    (ls : List Lexeme) {d : Draft} (h : P d) : (take macros ls d).1.Of P := by
  induction ls generalizing d with
  | nil =>
      unfold take
      split
      · exact h
      · exact ⟨d, h, ‹_›⟩
  | cons l ls ih =>
      unfold take
      split
      · exact ih (hliminals d _ h)
      · exact ih (hliminals d _ h)
      · dsimp only
        split
        · exact ih (hliminals d _ h)
        · exact ⟨_, hliminals d _ h, ‹_›⟩
      · exact hliminals d _ h
      · exact ih (addLexeme_induction hliminals htoken macros h l)

/-- Only the first token that is taken may have a head. -/
theorem HeadFirst.take {d : Draft} (h : d.HeadFirst) (macros : MacroTable) (ls : List Lexeme) :
    (take macros ls d).1.Of HeadFirst :=
  take_induction (P := HeadFirst) (fun _ _ h => h) (fun _ _ ht h => h.addToken ht) macros ls h

/-- Behind the first token the text in front of it stays what it is. -/
theorem Begun.take {d : Draft} {lead : List Text} (h : d.Begun lead) (macros : MacroTable)
    (ls : List Lexeme) : (Draft.take macros ls d).1.Of (Begun lead) :=
  take_induction (fun _ liminals h => h.addLiminals liminals) (fun _ _ ht h => h.addToken ht)
    macros ls h

/-- A token that is joined keeps its head. -/
theorem heads_of_resume {d d' : Draft} {content rest : List Lexeme} {events : List Event}
    (h : d.resume content = .ok (d', rest, events)) : d'.heads = d.heads := by
  rcases resume_cases h with
    ⟨previous, older, fragment, merged, htokens, _, hmerged, rfl, _⟩ | ⟨_, rfl, _⟩
  · obtain ⟨_, _, l, _, _, _, hform⟩ := Continuation.rejoin_eq_some hmerged
    have hhead : merged.head = previous.head := by rw [hform]
    simp [heads, htokens, hhead]
  · rfl

theorem HeadFirst.of_resume {d d' : Draft} {content rest : List Lexeme} {events : List Event}
    (h : d.HeadFirst) (hr : d.resume content = .ok (d', rest, events)) : d'.HeadFirst := by
  rwa [HeadFirst, heads_of_resume hr]

/-- Without macros content in front of which a token stands, or that starts with one, is taken into a
draft that has its first token. -/
theorem begun_of_resume {d d' : Draft} {content rest : List Lexeme} {events : List Event}
    (h : d.resume content = .ok (d', rest, events))
    (hcontent : d.tokens ≠ [] ∨ ∃ l ls, content = l :: ls ∧ l.isSemantic = true) :
    (take .empty rest d').1.Of (Begun d.lead) := by
  by_cases hd : d.tokens = []
  · obtain ⟨l, ls, rfl, hl⟩ := hcontent.resolve_left (absurd hd)
    have hrole : l.role = .semantic := by simpa [Lexeme.isSemantic] using hl
    have hsplit : splitMark (l :: ls) = ([], l :: ls) := by
      simp [splitMark, Lexeme.isContinuation, hrole]
    rcases resume_cases h with ⟨_, _, _, _, htokens, _⟩ | ⟨rfl, rfl, _⟩
    · rw [hd] at htokens
      cases htokens
    · have hnone : d.addLiminals [] = d := by simp [addLiminals]
      rw [hsplit, hnone, take]
      simp only [hrole]
      exact Begun.take (begun_addToken d rfl) .empty ls
  · have hheads := heads_of_resume h
    obtain ⟨heads, hlead⟩ := exists_heads hd
    have htokens : d'.tokens ≠ [] := by
      intro hnil
      rw [Draft.heads, hnil, hlead] at hheads
      exact List.append_ne_nil_of_right_ne_nil heads (List.cons_ne_nil _ []) hheads.symm
    exact Begun.take ⟨htokens, lead_of_heads (hheads.trans hlead)⟩ .empty rest

/-- What is left behind a separator that closed a statement starts with a token. -/
theorem isSemantic_of_take {macros : MacroTable} {ls rest : List Lexeme} {d : Draft} {s : Statement}
    {l : Lexeme} {findings : List Finding}
    (h : take macros ls d = (.closed s (l :: rest), findings)) : l.isSemantic = true := by
  induction ls generalizing d findings with
  | nil =>
      unfold take at h
      split at h <;> cases h
  | cons m ls ih =>
      unfold take at h
      split at h
      · exact ih h
      · exact ih h
      · dsimp only at h
        split at h
        · exact ih h
        · obtain ⟨⟨_, hrest⟩, _⟩ : (_ ∧ _) ∧ _ := by simpa using h
          have hhead := List.head?_dropWhile_not
            (fun m : Lexeme => m.isLiminal || m.isContinuation) (m :: ls)
          rw [hrest] at hhead
          simpa [Lexeme.isSemantic_eq] using hhead
      · cases h
      · have hp : (take macros ls (d.addLexeme macros m)).1 = .closed s (l :: rest) :=
          congrArg Prod.fst h
        exact ih (Prod.ext hp rfl)

end Draft

end FreeForm
