import Mathlib.Data.List.TakeWhile
import FreeForm.Proofs.Draft.Expansion
import FreeForm.Proofs.Lexer.Alike

namespace FreeForm

/-!
# Positions in a line

The lexemes of a line lead to a position: to the front of a statement, behind a mark that continues
one, into a statement, or behind the separator that ended one. A statement takes on from there with
whatever the line holds next, unless a continuation mark makes the rest of the line liminal text.
-/

open Lexeme

namespace Lexer

/-- Takes lexemes into a draft whose place on the line is found. -/
def takeOn (r : Reader) (d : Draft) (ls : List Lexeme) : Taking :=
  match d.take r.macros ls with
  | (.open d', findings) => ⟨[], .ok (.building d'), findings.map r.diagnosed⟩
  | (.closed s [], findings) => ⟨[], .ok (.complete s []), findings.map r.diagnosed⟩
  | (.closed s (l :: ls), findings) =>
      (takeContent r (.ofLiminals []) (l :: ls)).prepend [s] (findings.map r.diagnosed)

theorem takeContent_eq_takeOn (r : Reader) (d : Draft) (content : List Lexeme) :
    takeContent r d content =
      match d.resume content with
      | .error e => ⟨[], .error e, []⟩
      | .ok (d', rest, joined) => (takeOn r d' rest).prepend [] joined := by
  rw [takeContent_eq]
  cases d.resume content with
  | error e => rfl
  | ok resumed =>
      obtain ⟨d', rest, joined⟩ := resumed
      dsimp only
      unfold takeOn
      cases d'.take r.macros rest with
      | mk progress findings =>
          cases progress with
          | «open» d'' => rfl
          | closed s rest' =>
              cases rest' with
              | nil => rfl
              | cons l ls => simp [Taking.prepend]

theorem takeOn_alike {r r' : Reader} (hr : r.macros = r'.macros) {d d' : Draft} (h : d.Alike d')
    (ls : List Lexeme) : (takeOn r d ls).Alike (takeOn r' d' ls) := by
  cases htake : d.take r.macros ls with
  | mk progress findings =>
      cases progress with
      | «open» e =>
          obtain ⟨e', htake', he⟩ := h.take_open (Lexeme.sameButEnd_refl ls) htake
          rw [hr] at htake'
          unfold takeOn
          rw [htake, htake']
          exact ⟨rfl, .ok (.building he)⟩
      | closed s rest =>
          obtain ⟨s', rest', htake', hs, hbehind⟩ :=
            h.take_closed (Lexeme.sameButEnd_refl ls) htake
          rw [hr] at htake'
          unfold takeOn
          rw [htake, htake']
          cases hbehind with
          | nil => exact ⟨rfl, .ok (.complete hs [] [])⟩
          | cons hl hrest =>
              have hmatches := takeContent_matches hr (Draft.alike_ofLiminals [] [])
                (.cons hl hrest)
              exact hmatches.1.alike.prepend (by simp [hs]) _ _

variable {r : Reader}

theorem takeContent_of_tokens_nil {d : Draft} (hd : d.tokens = []) {l : Lexeme}
    (hl : l.isContinuation = false) (ls : List Lexeme) :
    takeContent r d (l :: ls) = takeOn r d (l :: ls) := by
  have hresume : d.resume (l :: ls) = .ok (d.addLiminals [], l :: ls, []) := by
    simp [Draft.resume, Draft.splitMark, hl, hd]
  rw [takeContent_eq_takeOn, hresume]
  simp [Draft.addLiminals, Taking.prepend]

theorem takeContent_of_mark {d : Draft} (hd : d.tokens = []) {l : Lexeme}
    (hl : l.isContinuation = true) (ls : List Lexeme) :
    takeContent r d (l :: ls) = takeOn r (d.addLiminals [l.text]) ls := by
  have hresume : d.resume (l :: ls) = .ok (d.addLiminals [l.text], ls, []) := by
    simp [Draft.resume, Draft.splitMark, hl, hd]
  rw [takeContent_eq_takeOn, hresume]
  simp [Taking.prepend]

theorem takeOn_plain (d : Draft) {l : Lexeme} (hl : l.role = .whitespace ∨ l.role = .comment)
    (ls : List Lexeme) : takeOn r d (l :: ls) = takeOn r (d.addLiminals [l.text]) ls := by
  unfold takeOn
  rcases hl with hl | hl <;> simp [Draft.take, hl]

theorem takeOn_semantic (hr : r.macros = .empty) (d : Draft) {l : Lexeme}
    (hl : l.role = .semantic) (ls : List Lexeme) :
    takeOn r d (l :: ls) = takeOn r (d.addToken (.ofLexeme l)) ls := by
  have htake : d.take .empty (l :: ls) = (d.addToken (.ofLexeme l)).take .empty ls := by
    simp only [Draft.take, hl]
    rfl
  unfold takeOn
  rw [hr, htake]

theorem takeOn_separator_of_tokens_nil {d : Draft} (hd : d.tokens = []) {l : Lexeme}
    (hl : l.role = .separator) (ls : List Lexeme) :
    takeOn r d (l :: ls) = takeOn r (d.addLiminals [l.text]) ls := by
  have hnone : ∀ liminals, (d.addLiminals liminals).statement? = none := by
    intro liminals
    simp [Draft.statement?, Draft.addLiminals, hd]
  unfold takeOn
  simp only [Draft.take, hl, hnone]

theorem takeOn_mark (d : Draft) {l : Lexeme} (hl : l.role = .continuation) (ls : List Lexeme) :
    takeOn r d (l :: ls) =
      ⟨[], .ok (.building (d.addLiminals ((l :: ls).map Lexeme.text))), []⟩ := by
  unfold takeOn
  simp [Draft.take, hl]

/-- A separator ends a statement, and the next one starts behind liminal text and continuation
marks. -/
theorem takeOn_separator {d : Draft} {l : Lexeme} (hl : l.role = .separator) {ls : List Lexeme}
    (hls : ls.dropWhile (!·.isSemantic) ≠ []) {s : Statement}
    (hs : (d.addLiminals (((l :: ls).takeWhile (!·.isSemantic)).map Lexeme.text)).statement? =
      some s) :
    takeOn r d (l :: ls) =
      (takeContent r (.ofLiminals []) (ls.dropWhile (!·.isSemantic))).prepend [s] [] := by
  have hpred : (fun m : Lexeme => m.isLiminal || m.isContinuation) = (!·.isSemantic) := by
    funext m
    rw [Lexeme.isSemantic_eq, Bool.not_not]
  have hdrop : (l :: ls).dropWhile (!·.isSemantic) = ls.dropWhile (!·.isSemantic) :=
    List.dropWhile_cons_of_pos (by simp [Lexeme.isSemantic, hl])
  have htake : d.take r.macros (l :: ls) = (.closed s (ls.dropWhile (!·.isSemantic)), []) := by
    simp only [Draft.take, hl, hpred, hs, hdrop]
  obtain ⟨m, rest, hrest⟩ := List.exists_cons_of_ne_nil hls
  unfold takeOn
  rw [htake, hrest]
  rfl

end Lexer

/-- Where the lexemes of a line lead to. -/
inductive Position where
  /-- At the front of the line: nothing but liminal text was read. -/
  | front
  /-- Behind the mark that continues a statement. -/
  | marked
  /-- Behind a token of a statement. -/
  | within
  /-- Behind the separator that ended a statement. -/
  | behind
  deriving DecidableEq

namespace Position

/-- The position behind one more lexeme, unless that makes the rest of the line liminal text. -/
def next : Position → Lexeme → Option Position
  | p, l =>
      match l.role, p with
      | .semantic, _ => some within
      | .whitespace, _ | .comment, _ => some p
      | .separator, within => some behind
      | .separator, _ => some p
      | .continuation, front => some marked
      | .continuation, behind => some behind
      | .continuation, marked | .continuation, within => none

/-- The position behind some lexemes. -/
def after (p : Position) : List Lexeme → Option Position
  | [] => some p
  | l :: ls => (p.next l).bind (after · ls)

/-- Takes the rest of a line from a position on, with the draft of the statement that it is in. -/
def take (r : Reader) : Position → Draft → List Lexeme → Taking
  | front, d, ls => (Phase.building d).takeParts r (.ofLexemes ls)
  | marked, d, ls | within, d, ls => Lexer.takeOn r d ls
  | behind, _, ls => Lexer.takeContent r (.ofLiminals []) (ls.dropWhile (!·.isSemantic))

/-- Whether a draft has tokens just when a statement has started. -/
def Fits : Position → Draft → Prop
  | front, d | marked, d => d.tokens = []
  | within, d => d.tokens ≠ []
  | behind, _ => True

variable {r : Reader}

theorem take_front_of_liminal (d : Draft) {l : Lexeme} (hl : l.isLiminal = true)
    (ls : List Lexeme) : front.take r d (l :: ls) = front.take r (d.addLiminals [l.text]) ls := by
  have hlead : (Phase.building d).addLiminals (LineParts.ofLexemes (l :: ls)).lead =
      (Phase.building (d.addLiminals [l.text])).addLiminals (LineParts.ofLexemes ls).lead := by
    simp [LineParts.ofLexemes, hl, Phase.addLiminals, Draft.addLiminals]
  have hcontent : (LineParts.ofLexemes (l :: ls)).content = (LineParts.ofLexemes ls).content := by
    simp [LineParts.ofLexemes, hl]
  simp only [take, Phase.takeParts, hlead, hcontent]

theorem take_front_of_not_liminal (d : Draft) {l : Lexeme} (hl : l.isLiminal = false)
    (ls : List Lexeme) : front.take r d (l :: ls) = Lexer.takeContent r d (l :: ls) := by
  have hadd : d.addLiminals [] = d := by simp [Draft.addLiminals]
  simp [take, Phase.takeParts, LineParts.ofLexemes, hl, Phase.addLiminals, hadd]

theorem take_behind_of_not_semantic (d : Draft) {l : Lexeme} (hl : l.isSemantic = false)
    (ls : List Lexeme) : behind.take r d (l :: ls) = behind.take r d ls := by
  have hdrop : (l :: ls).dropWhile (!·.isSemantic) = ls.dropWhile (!·.isSemantic) :=
    List.dropWhile_cons_of_pos (by simp [hl])
  simp only [take, hdrop]

theorem take_behind_of_semantic (d : Draft) {l : Lexeme} (hl : l.isSemantic = true)
    (ls : List Lexeme) :
    behind.take r d (l :: ls) = Lexer.takeOn r (.ofLiminals []) (l :: ls) := by
  have hmark := (Lexeme.not_of_isSemantic hl).2
  have hdrop : (l :: ls).dropWhile (!·.isSemantic) = l :: ls :=
    List.dropWhile_cons_of_neg (by simp [hl])
  simp only [take, hdrop]
  exact Lexer.takeContent_of_tokens_nil rfl hmark ls

theorem takeWhile_append_of_stops {α : Type} {p : α → Bool} {xs ys : List α}
    (h : (∃ x ∈ xs, p x = false) ∨ ∃ y ∈ ys.head?, p y = false) :
    (xs ++ ys).takeWhile p = xs.takeWhile p := by
  induction xs with
  | nil =>
      obtain ⟨y, hy, hstop⟩ := h.resolve_left (by simp)
      obtain ⟨ys, rfl⟩ := List.head?_eq_some_iff.mp hy
      simp [hstop]
  | cons x xs ih =>
      cases hx : p x with
      | false => simp [hx]
      | true =>
          have htail : (∃ x ∈ xs, p x = false) ∨ ∃ y ∈ ys.head?, p y = false := by
            simpa [hx] using h
          simp [hx, ih htail]

/-- A separator ends a statement, which is the same whichever token comes behind. -/
theorem exists_take_behind_of_separator {d : Draft} (hd : d.tokens ≠ []) {m : Lexeme}
    (hm : m.role = .separator) (before : List Lexeme) :
    ∃ s, ∀ (r : Reader) (rest : List Lexeme),
      ((∃ l ∈ before, l.isSemantic = true) ∨ ∃ l ∈ rest.head?, l.isSemantic = true) →
      Lexer.takeOn r d (m :: (before ++ rest)) =
        (behind.take r d (before ++ rest)).prepend [s] [] := by
  have hsemantic : m.isSemantic = false := by simp [isSemantic, hm]
  obtain ⟨s, hs, _⟩ := Draft.exists_statement? (d := d.addLiminals
    (((m :: before).takeWhile (!·.isSemantic)).map Lexeme.text)) hd
  refine ⟨s, fun r rest hcomes => ?_⟩
  have hstops : (∃ l ∈ m :: before, (!l.isSemantic) = false) ∨
      ∃ l ∈ rest.head?, (!l.isSemantic) = false := by
    simpa [hsemantic] using hcomes
  rw [← takeWhile_append_of_stops hstops] at hs
  refine Lexer.takeOn_separator hm (fun hnil => ?_) hs
  have hnone := List.dropWhile_eq_nil_iff.mp hnil
  rcases hcomes with ⟨l, hl, hcome⟩ | ⟨l, hl, hcome⟩
  · have hl' := hnone l (List.mem_append_left rest hl)
    simp [hcome] at hl'
  · have hl' := hnone l (List.mem_append_right before (List.mem_of_head? hl))
    simp [hcome] at hl'

/-- Behind one more lexeme the line is taken from the next position on. Behind a separator that
needs another token to come. -/
theorem exists_of_next {p q : Position} {d : Draft} (hd : p.Fits d) {m : Lexeme}
    (h : p.next m = some q) (before : List Lexeme) :
    ∃ ss d', q.Fits d' ∧ ∀ r : Reader, r.macros = .empty → ∀ rest,
      (q = behind → (∃ l ∈ before, l.isSemantic = true) ∨ ∃ l ∈ rest.head?, l.isSemantic = true) →
      p.take r d (m :: (before ++ rest)) = (q.take r d' (before ++ rest)).prepend ss [] := by
  cases hrole : m.role with
  | semantic =>
      have hsemantic : m.isSemantic = true := by simp [isSemantic, hrole]
      have hliminal : m.isLiminal = false := by simp [isLiminal, hrole]
      have hmark : m.isContinuation = false := by simp [isContinuation, hrole]
      obtain rfl : within = q := by simpa [next, hrole] using h
      have hfits : ∀ d : Draft, within.Fits (d.addToken (.ofLexeme m)) :=
        fun d => d.tokens_addToken_ne_nil _
      cases p with
      | front =>
          refine ⟨[], d.addToken (.ofLexeme m), hfits d, fun r hr rest _ => ?_⟩
          rw [take_front_of_not_liminal d hliminal, Lexer.takeContent_of_tokens_nil hd hmark,
            Lexer.takeOn_semantic hr d hrole]
          rfl
      | marked | within =>
          refine ⟨[], d.addToken (.ofLexeme m), hfits d, fun r hr rest _ => ?_⟩
          exact Lexer.takeOn_semantic hr d hrole _
      | behind =>
          refine ⟨[], (Draft.ofLiminals []).addToken (.ofLexeme m), hfits _, fun r hr rest _ => ?_⟩
          rw [take_behind_of_semantic d hsemantic, Lexer.takeOn_semantic hr _ hrole]
          rfl
  | whitespace | comment =>
      have hsemantic : m.isSemantic = false := by simp [isSemantic, hrole]
      have hliminal : m.isLiminal = true := by simp [isLiminal, hrole]
      have hplain : m.role = .whitespace ∨ m.role = .comment := by simp [hrole]
      obtain rfl : p = q := by simpa [next, hrole] using h
      cases p with
      | front =>
          exact ⟨[], d.addLiminals [m.text], hd,
            fun r hr rest _ => take_front_of_liminal d hliminal _⟩
      | marked | within =>
          exact ⟨[], d.addLiminals [m.text], hd, fun r hr rest _ => Lexer.takeOn_plain d hplain _⟩
      | behind =>
          exact ⟨[], d, trivial, fun r hr rest _ => take_behind_of_not_semantic d hsemantic _⟩
  | separator =>
      have hsemantic : m.isSemantic = false := by simp [isSemantic, hrole]
      have hliminal : m.isLiminal = true := by simp [isLiminal, hrole]
      cases p with
      | front =>
          obtain rfl : front = q := by simpa [next, hrole] using h
          exact ⟨[], d.addLiminals [m.text], hd,
            fun r hr rest _ => take_front_of_liminal d hliminal _⟩
      | marked =>
          obtain rfl : marked = q := by simpa [next, hrole] using h
          exact ⟨[], d.addLiminals [m.text], hd,
            fun r hr rest _ => Lexer.takeOn_separator_of_tokens_nil hd hrole _⟩
      | within =>
          obtain rfl : behind = q := by simpa [next, hrole] using h
          obtain ⟨s, hs⟩ := exists_take_behind_of_separator hd hrole before
          exact ⟨[s], d, trivial, fun r hr rest hcomes => hs r rest (hcomes rfl)⟩
      | behind =>
          obtain rfl : behind = q := by simpa [next, hrole] using h
          exact ⟨[], d, trivial, fun r hr rest _ => take_behind_of_not_semantic d hsemantic _⟩
  | continuation =>
      have hsemantic : m.isSemantic = false := by simp [isSemantic, hrole]
      have hliminal : m.isLiminal = false := by simp [isLiminal, hrole]
      have hmark : m.isContinuation = true := by simp [isContinuation, hrole]
      cases p with
      | front =>
          obtain rfl : marked = q := by simpa [next, hrole] using h
          refine ⟨[], d.addLiminals [m.text], hd, fun r hr rest _ => ?_⟩
          rw [take_front_of_not_liminal d hliminal]
          exact Lexer.takeContent_of_mark hd hmark _
      | marked | within => simp [next, hrole] at h
      | behind =>
          obtain rfl : behind = q := by simpa [next, hrole] using h
          exact ⟨[], d, trivial, fun r hr rest _ => take_behind_of_not_semantic d hsemantic _⟩

/-- Nothing but a token leads on from behind a separator. -/
theorem exists_semantic_of_after {ls : List Lexeme} {q : Position}
    (h : behind.after ls = some q) (hq : q ≠ behind) : ∃ l ∈ ls, l.isSemantic = true := by
  induction ls with
  | nil => exact absurd (Option.some.inj h).symm hq
  | cons m ls ih =>
      cases hrole : m.role with
      | semantic => exact ⟨m, List.mem_cons_self, by simp [isSemantic, hrole]⟩
      | whitespace | comment | separator | continuation =>
          obtain ⟨l, hl, hsemantic⟩ := ih (by simpa [after, next, hrole] using h)
          exact ⟨l, List.mem_cons_of_mem m hl, hsemantic⟩

/-- Some lexemes are taken up to where they lead to, and the rest of the line from there on. Behind
a separator that needs the next token to come first. -/
theorem exists_of_after {before : List Lexeme} {p q : Position} {d : Draft} (hd : p.Fits d)
    (h : p.after before = some q) :
    ∃ ss d', q.Fits d' ∧ ∀ r : Reader, r.macros = .empty → ∀ rest,
      (q = behind → ∃ l ∈ rest.head?, l.isSemantic = true) →
      p.take r d (before ++ rest) = (q.take r d' rest).prepend ss [] := by
  induction before generalizing p d with
  | nil =>
      obtain rfl := Option.some.inj h
      exact ⟨[], d, hd, fun r hr rest _ => rfl⟩
  | cons m before ih =>
      obtain ⟨q', hnext, hafter⟩ := Option.bind_eq_some_iff.mp h
      obtain ⟨ss, d', hd', hstep⟩ := exists_of_next hd hnext before
      obtain ⟨ts, d'', hd'', hrun⟩ := ih hd' hafter
      refine ⟨ss ++ ts, d'', hd'', fun r hr rest hcomes => ?_⟩
      have hcomes' : q' = behind →
          (∃ l ∈ before, l.isSemantic = true) ∨ ∃ l ∈ rest.head?, l.isSemantic = true := by
        rintro rfl
        by_cases hq : q = behind
        · exact .inr (hcomes hq)
        · exact .inl (exists_semantic_of_after hafter hq)
      rw [List.cons_append, hstep r hr rest hcomes', hrun r hr rest hcomes]
      simp [Taking.prepend]

/-- Where the lexemes of a line lead to, a statement takes on with whatever token comes next. -/
theorem exists_takeOn_of_after {before : List Lexeme} {p q : Position} {d : Draft} (hd : p.Fits d)
    (h : p.after before = some q) :
    ∃ ss d', ∀ r : Reader, r.macros = .empty → ∀ l rest, l.isSemantic = true →
      p.take r d (before ++ l :: rest) = (Lexer.takeOn r d' (l :: rest)).prepend ss [] := by
  obtain ⟨ss, d', hd', hrun⟩ := exists_of_after hd h
  have htoken : ∃ d'', ∀ r : Reader, ∀ l rest, l.isSemantic = true →
      q.take r d' (l :: rest) = Lexer.takeOn r d'' (l :: rest) := by
    cases q with
    | front =>
        refine ⟨d', fun r l rest hl => ?_⟩
        obtain ⟨hliminal, hmark⟩ := Lexeme.not_of_isSemantic hl
        rw [take_front_of_not_liminal d' hliminal]
        exact Lexer.takeContent_of_tokens_nil hd' hmark rest
    | marked | within => exact ⟨d', fun r l rest _ => rfl⟩
    | behind => exact ⟨.ofLiminals [], fun r l rest hl => take_behind_of_semantic d' hl rest⟩
  obtain ⟨d'', hd''⟩ := htoken
  refine ⟨ss, d'', fun r hr l rest hl => ?_⟩
  rw [hrun r hr (l :: rest) fun _ => ⟨l, rfl, hl⟩, hd'' r l rest hl]

theorem next_eq_none {p : Position} {m : Lexeme} (h : p.next m = none) :
    m.role = .continuation ∧ (p = marked ∨ p = within) := by
  cases hrole : m.role <;> cases p <;> simp [next, hrole] at h ⊢

/-- Lexemes that lead nowhere hold a continuation mark that cuts the statement off. -/
theorem exists_mark_of_after {ls : List Lexeme} {p : Position} (h : p.after ls = none) :
    ∃ before m rest q, ls = before ++ m :: rest ∧ m.role = .continuation ∧
      p.after before = some q ∧ (q = marked ∨ q = within) := by
  induction ls generalizing p with
  | nil => cases h
  | cons m ls ih =>
      cases hnext : p.next m with
      | none =>
          obtain ⟨hmark, hp⟩ := next_eq_none hnext
          exact ⟨[], m, ls, p, rfl, hmark, rfl, hp⟩
      | some q =>
          have hrest : q.after ls = none := by
            simpa [after, hnext] using h
          obtain ⟨before, mark, rest, q', rfl, hmark, hafter, hq'⟩ := ih hrest
          refine ⟨m :: before, mark, rest, q', rfl, hmark, ?_, hq'⟩
          rw [after, hnext]
          exact hafter

/-- Behind a mark that cuts a statement off, the rest of a line is liminal text. -/
theorem exists_of_not_after {before : List Lexeme} {p : Position} {d : Draft} (hd : p.Fits d)
    (h : p.after before = none) :
    ∃ (ss : List Statement) (d' : Draft), ∀ r : Reader, r.macros = .empty → ∀ rest, ∃ liminals,
      p.take r d (before ++ rest) = ⟨ss, .ok (.building (d'.addLiminals liminals)), []⟩ := by
  obtain ⟨front, m, back, q, rfl, hmark, hafter, hq⟩ := exists_mark_of_after h
  obtain ⟨ss, d', _, hrun⟩ := exists_of_after hd hafter
  refine ⟨ss, d', fun r hr rest => ⟨(m :: (back ++ rest)).map Lexeme.text, ?_⟩⟩
  have hbehind : q ≠ behind := by
    rcases hq with rfl | rfl <;> decide
  have htake : q.take r d' (m :: (back ++ rest)) = Lexer.takeOn r d' (m :: (back ++ rest)) := by
    rcases hq with rfl | rfl <;> rfl
  rw [List.append_assoc, List.cons_append, hrun r hr _ fun h => absurd h hbehind, htake,
    Lexer.takeOn_mark d' hmark]
  simp [Taking.prepend]

end Position

end FreeForm
