import FreeForm.Lexer.Drain

namespace FreeForm

/-!
# Asking a lexer again and again

What a row of requests yields. The requests behind an error, or behind the end of the source, yield
nothing more, so a row of requests yields what draining yields and then nothing.
-/

namespace Lexer

/-- What `n` requests yield, and the lexer they leave. -/
def request (env : Environment) : Nat → Lexer → List Yield × Lexer
  | 0, x => ([], x)
  | n + 1, x =>
      let later := request env n (x.next env).lexer
      ((x.next env).yield :: later.1, later.2)

theorem next_of_failed (env : Environment) {x : Lexer} (h : x.status = .failed) :
    x.next env = ⟨.finished, x, []⟩ := by
  simp [next, h]

theorem next_of_deferred (env : Environment) {x : Lexer} {e : LexError}
    (h : x.status = .deferred e) :
    x.next env = ⟨.failure e, { x with status := .failed }, []⟩ := by
  simp [next, h]

/-- A lexer that yields nothing more. -/
def Spent (x : Lexer) : Prop :=
  x.status = .failed ∨ x.status = .ready ∧ x.cache = [] ∧ x.lines = []

theorem Spent.next {x : Lexer} (h : x.Spent) (env : Environment) :
    x.next env = ⟨.finished, x, []⟩ := by
  rcases h with hfailed | ⟨hready, hcache, hlines⟩
  · exact next_of_failed env hfailed
  · obtain ⟨r, lines, cache, pending, status⟩ := x
    dsimp only at hready hcache hlines
    subst hready hcache hlines
    rfl

theorem Spent.request {x : Lexer} (h : x.Spent) (env : Environment) (n : Nat) :
    (x.request env n).1 = List.replicate n .finished := by
  induction n with
  | zero => rfl
  | succ n ih =>
      simp only [Lexer.request, h.next, List.replicate_succ]
      rw [ih]

end Lexer

/-- A step that yields no statement leaves nothing more to be yielded. -/
def Step.Ends (step : Step) : Prop :=
  (∀ s, step.yield ≠ .statement s) → step.lexer.Spent

namespace Lexer

theorem ends_atEnd (r : Reader) (phase : Phase) : (atEnd r phase).Ends := by
  intro _
  unfold atEnd
  split
  · split <;> exact Or.inr ⟨rfl, rfl, rfl⟩
  · exact Or.inr ⟨rfl, rfl, rfl⟩

theorem ends_atError (r : Reader) (lines : Source) (e : LexError) (phase : Phase) :
    (atError r lines e phase).Ends := by
  intro h
  cases phase with
  | building d => exact Or.inl rfl
  | complete s ahead => exact absurd rfl (h s)

theorem ends_consume (r : Reader) {lines : Source} {next : Reader → Phase → Step}
    (hnext : ∀ r phase, (next r phase).Ends) (d : Draft) (content : List Lexeme) :
    (consume r lines next d content).Ends := by
  unfold consume
  split
  · intro _
    exact Or.inl rfl
  · dsimp only
    split
    · exact hnext _ _
    · exact hnext _ _
    · intro h
      exact absurd rfl (h _)

theorem ends_atContent (r : Reader) {lines : Source} {next : Reader → Phase → Step}
    (hnext : ∀ r phase, (next r phase).Ends) (content : List Lexeme) (phase : Phase) :
    (atContent r lines next content phase).Ends := by
  cases phase with
  | building d => exact ends_consume r hnext d content
  | complete s ahead =>
      intro h
      exact absurd rfl (h _)

theorem ends_advance (env : Environment) (lines : Source) (r : Reader) (phase : Phase) :
    (advance env lines r phase).Ends := by
  induction lines generalizing r phase with
  | nil => exact ends_atEnd r phase
  | cons line lines ih =>
      unfold advance
      dsimp only
      split
      · exact ends_atError _ lines _ phase
      · split
        · exact ih _ _
        · exact ends_atContent _ ih _ _

theorem ends_next (env : Environment) (x : Lexer) : (x.next env).Ends := by
  unfold next
  split
  · rename_i hfailed
    intro _
    exact Or.inl hfailed
  · intro _
    exact Or.inl rfl
  · split
    · exact ends_advance env _ _ _
    · exact ends_consume _ (ends_advance env x.lines) _ _

/-- Behind an error there is nothing more. -/
theorem request_of_failure {env : Environment} {x : Lexer} {e : LexError}
    (h : (x.next env).yield = .failure e) (n : Nat) :
    ((x.next env).lexer.request env n).1 = List.replicate n .finished := by
  refine Spent.request (ends_next env x fun s hs => ?_) env n
  rw [h] at hs
  cases hs

/-- The answers that draining a lexer amounts to. -/
def Yielded.answers (y : Yielded) : List Yield :=
  y.statements.map .statement ++ y.failure.toList.map .failure

/-- Requests yield what draining does, and then nothing more. -/
theorem request_eq_take (env : Environment) (x : Lexer) {m n : Nat} (hn : n ≤ m) :
    (x.request env n).1 =
      ((x.drain env).answers ++ List.replicate m Yield.finished).take n := by
  induction n generalizing x with
  | zero => rfl
  | succ n ih =>
      obtain ⟨m, rfl⟩ := Nat.exists_eq_succ_of_ne_zero (Nat.ne_zero_of_lt hn)
      have hends := ends_next env x
      rw [drain]
      split
      · rename_i y events hnext
        rw [hnext] at hends
        have hspent : y.Spent := hends fun s hs => by cases hs
        simp [request, hnext, hspent.request, Yielded.answers, List.replicate_succ,
          List.take_replicate, Nat.le_of_succ_le_succ hn]
      · rename_i e y events hnext
        rw [hnext] at hends
        have hspent : y.Spent := hends fun s hs => by cases hs
        simp [request, hnext, hspent.request, Yielded.answers, List.take_replicate,
          Nat.le_of_succ_le hn]
      · rename_i s y events hnext
        simp only [request, hnext, ih y (Nat.le_of_succ_le hn)]
        rfl

end Lexer

end FreeForm
