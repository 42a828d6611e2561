import FreeForm.Proofs.Draft.Parts

namespace FreeForm

/-!
# The layout of parts

Which tokens belong to one statement can be told from the parts of a document alone. They are gone
through once: a token belongs to the statement that is open, and a liminal text matters by what it
is, a line end, a continuation mark or a separator, and by where on its line it stands. A draft that
takes lexemes is laid out by its parts in the same way, whatever macros the lexemes stand for and
whatever has been joined.
-/

/-- What a liminal text is taken for. -/
inductive Liminal where
  | lineEnd
  | mark
  | separator
  | blank
  /-- A comment that makes its line a directive if nothing but blanks precede it. -/
  | directive
  /-- An invocation that is replaced by nothing. -/
  | name
  | comment
  deriving DecidableEq, Repr

/-- The characters that the name of a predefined macro may start with. -/
def isIdentifierStart (c : Char) : Bool :=
  c.isAlpha || c == '_'

def Liminal.ofText (t : Text) : Liminal :=
  if t = [] ∨ t.getLast? = some '\n' then .lineEnd
  else if t = Continuation.mark then .mark
  else if t = [';'] then .separator
  else
    match t.dropWhile isBlank with
    | [] => .blank
    | c :: _ =>
        if c = Lexeme.directiveMark then .directive
        else if isIdentifierStart c then .name
        else .comment

/-- Where on a line a part stands. -/
inductive LinePlace where
  /-- Behind nothing but blanks. -/
  | margin
  /-- Behind liminal text in front of the content of the line. -/
  | front
  /-- Behind content. -/
  | inside
  /-- Behind the separator that closed a statement. -/
  | stray
  /-- Behind a continuation mark that hides the rest of the line. -/
  | hidden
  deriving DecidableEq, Repr

/-- The place behind a liminal text, depending on whether a statement is open. -/
def LinePlace.next (opened : Bool) : LinePlace → Liminal → LinePlace
  | _, .lineEnd => .margin
  | .hidden, _ => .hidden
  | _, .name => .inside
  | .stray, _ => .stray
  | .inside, .mark => .hidden
  | .inside, .separator => if opened then .stray else .inside
  | .inside, _ => .inside
  | .margin, .mark | .front, .mark => .inside
  | .margin, .blank => .margin
  | .margin, _ | .front, _ => .front

/-- Whether a liminal text closes the statement that is open. -/
def LinePlace.closes : LinePlace → Liminal → Bool
  | .inside, .lineEnd | .inside, .separator => true
  | _, _ => false

theorem LinePlace.closes_hidden (k : Liminal) : LinePlace.closes .hidden k = false := by
  cases k <;> rfl

/-- In front of the content of a line nothing closes a statement. -/
theorem LinePlace.closes_of_front {p : LinePlace} (hp : p = .margin ∨ p = .front) (k : Liminal) :
    p.closes k = false := by
  rcases hp with rfl | rfl <;> rfl

/-- Whether the text between two tokens is a continuation that both touch. -/
def Continuation.touches (between : List Text) : Bool :=
  between.head? == some mark &&
    between.getLast?.any fun t => t == mark || t.getLast? == some '\n'

structure Layout where
  place : LinePlace
  /-- The values of each statement that is closed. -/
  closed : List (List Text)
  /-- The tokens of the statement that is open, the newest first. -/
  group : List Word
  /-- The liminal texts behind the newest token. -/
  between : List Text
  /-- The neighbours in a statement that touch across a continuation. -/
  seams : List (Word × Word)
  /-- Whether no comment makes its line a directive. -/
  plain : Bool
  /-- Whether no invocation was replaced by nothing. -/
  whole : Bool
  deriving DecidableEq, Repr

namespace Layout

def start : Layout := ⟨.margin, [], [], [], [], true, true⟩

def close (σ : Layout) : Layout :=
  match σ.group with
  | [] => σ
  | _ :: _ => { σ with closed := σ.closed ++ [(σ.group.map Word.value).reverse], group := [] }

def addToken (σ : Layout) (w : Word) : Layout :=
  { σ with
    place := .inside
    group := w :: σ.group
    between := []
    seams := σ.seams ++
      if Continuation.touches σ.between then σ.group.head?.toList.map (·, w) else [] }

def addLiminal (σ : Layout) (t : Text) : Layout :=
  let τ := if σ.place.closes (.ofText t) then σ.close else σ
  { τ with
    place := σ.place.next (!σ.group.isEmpty) (.ofText t)
    between := σ.between ++ [t]
    plain := σ.plain && !(σ.place == .margin && Liminal.ofText t == .directive)
    whole := σ.whole && !(σ.place != .hidden && Liminal.ofText t == .name) }

def step (σ : Layout) : Part → Layout
  | .token w => σ.addToken w
  | .liminal t => σ.addLiminal t

/-- The layout behind some parts. -/
def run (σ : Layout) (ps : List Part) : Layout :=
  ps.foldl step σ

/-- The values of all statements; the end of the source closes the last. -/
def values (σ : Layout) : List (List Text) :=
  σ.close.closed

theorem run_append (σ : Layout) (ps qs : List Part) : σ.run (ps ++ qs) = (σ.run ps).run qs :=
  List.foldl_append

@[simp] theorem run_nil (σ : Layout) : σ.run [] = σ := rfl

theorem run_cons (σ : Layout) (p : Part) (ps : List Part) : σ.run (p :: ps) = (σ.step p).run ps :=
  rfl

theorem plain_of_step {σ : Layout} {p : Part} (h : (σ.step p).plain = true) :
    σ.plain = true := by
  cases p with
  | token w => exact h
  | liminal t => exact (Bool.and_eq_true_iff.mp h).1

theorem plain_of_run {σ : Layout} {ps : List Part} (h : (σ.run ps).plain = true) :
    σ.plain = true := by
  induction ps generalizing σ with
  | nil => exact h
  | cons p ps ih => exact plain_of_step (ih h)

@[simp] theorem seams_close (σ : Layout) : σ.close.seams = σ.seams := by
  unfold close
  split <;> rfl

theorem seams_addLiminal (σ : Layout) (t : Text) : (σ.addLiminal t).seams = σ.seams := by
  unfold addLiminal
  dsimp only
  split <;> simp

theorem seams_prefix_step (σ : Layout) (p : Part) : σ.seams <+: (σ.step p).seams := by
  cases p with
  | token w => exact List.prefix_append _ _
  | liminal t => exact ⟨[], (List.append_nil _).trans (seams_addLiminal σ t).symm⟩

theorem seams_prefix_run (σ : Layout) (ps : List Part) : σ.seams <+: (σ.run ps).seams := by
  induction ps generalizing σ with
  | nil => exact List.prefix_refl _
  | cons p ps ih => exact (seams_prefix_step σ p).trans (ih (σ.step p))

theorem addLiminal_of_open {σ : Layout} {t : Text}
    (h : σ.place.closes (.ofText t) = false ∨ σ.group = []) :
    (σ.addLiminal t).group = σ.group ∧ (σ.addLiminal t).closed = σ.closed := by
  rcases h with h | h
  · simp [addLiminal, h]
  · simp only [addLiminal, close, h, ite_self]
    exact ⟨trivial, trivial⟩

theorem place_addLiminal (σ : Layout) (t : Text) :
    (σ.addLiminal t).place = σ.place.next (!σ.group.isEmpty) (.ofText t) := rfl

theorem addLiminal_of_closing {σ : Layout} {t : Text} (h : σ.place.closes (.ofText t) = true)
    (hgroup : σ.group ≠ []) :
    (σ.addLiminal t).group = [] ∧
      (σ.addLiminal t).closed = σ.closed ++ [(σ.group.map Word.value).reverse] := by
  obtain ⟨newest, older, hcons⟩ := List.exists_cons_of_ne_nil hgroup
  simp [addLiminal, h, close, hcons]

theorem run_tokens {σ : Layout} {ws : List Word} (h : ws ≠ [] ∨ σ.place = .inside) :
    (σ.run (ws.map .token)).place = .inside ∧
      (σ.run (ws.map .token)).closed = σ.closed ∧
      (σ.run (ws.map .token)).plain = σ.plain := by
  induction ws generalizing σ with
  | nil =>
      rcases h with h | h
      · exact absurd rfl h
      · exact ⟨h, rfl, rfl⟩
  | cons w ws ih => exact @ih (σ.addToken w) (Or.inr rfl)

theorem plain_addLiminal {σ : Layout} {t : Text}
    (h : σ.place ≠ .margin ∨ Liminal.ofText t ≠ .directive) :
    (σ.addLiminal t).plain = σ.plain := by
  have hkept : (σ.place == .margin && Liminal.ofText t == .directive) = false := by
    rcases h with h | h <;> simp [h]
  simp [addLiminal, hkept]

/-- The parts that a lexeme leads to: the tokens of its macro body, or its own text. Behind a mark
that hides it it is liminal. -/
def lexemeParts (macros : MacroTable) (σ : Layout) (l : Lexeme) : List Part :=
  if l.isSemantic && σ.place != .hidden then
    match macros.get? l.text with
    | none => [.token ⟨l.text, .written⟩]
    | some [] => [.liminal l.text]
    | some body => (body.map fun m => ⟨m.text, .expanded⟩).map .token
  else [.liminal l.text]

def partsOf (macros : MacroTable) (σ : Layout) : List Lexeme → List Part
  | [] => []
  | l :: ls => σ.lexemeParts macros l ++ partsOf macros (σ.run (σ.lexemeParts macros l)) ls

def after (macros : MacroTable) (σ : Layout) (ls : List Lexeme) : Layout :=
  σ.run (σ.partsOf macros ls)

theorem partsOf_append (macros : MacroTable) (σ : Layout) (ls ms : List Lexeme) :
    σ.partsOf macros (ls ++ ms) =
      σ.partsOf macros ls ++ (σ.after macros ls).partsOf macros ms := by
  induction ls generalizing σ with
  | nil => rfl
  | cons l ls ih =>
      rw [List.cons_append, partsOf, ih, partsOf, List.append_assoc, after, after, partsOf,
        run_append]

theorem after_append (macros : MacroTable) (σ : Layout) (ls ms : List Lexeme) :
    σ.after macros (ls ++ ms) = (σ.after macros ls).after macros ms := by
  rw [after, partsOf_append, run_append]
  rfl

theorem after_cons (macros : MacroTable) (σ : Layout) (l : Lexeme) (ls : List Lexeme) :
    σ.after macros (l :: ls) = (σ.run (σ.lexemeParts macros l)).after macros ls := by
  rw [after, partsOf, run_append]
  rfl

theorem lexemeParts_of_not_semantic (macros : MacroTable) (σ : Layout) {l : Lexeme}
    (h : l.isSemantic = false) : σ.lexemeParts macros l = [.liminal l.text] := by
  simp [lexemeParts, h]

theorem lexemeParts_of_hidden (macros : MacroTable) {σ : Layout} (h : σ.place = .hidden)
    (l : Lexeme) : σ.lexemeParts macros l = [.liminal l.text] := by
  simp [lexemeParts, h]

/-- A lexeme leads to tokens, or to itself as liminal text. -/
theorem lexemeParts_cases (macros : MacroTable) (σ : Layout) (l : Lexeme) :
    (l.isSemantic = true ∧ ∃ ws : List Word, ws ≠ [] ∧
      σ.lexemeParts macros l = ws.map .token) ∨
    σ.lexemeParts macros l = [.liminal l.text] ∧
      (l.isSemantic = true → σ.place = .hidden ∨ macros.get? l.text = some []) := by
  unfold lexemeParts
  cases hsemantic : l.isSemantic with
  | false => exact Or.inr ⟨rfl, fun h => by cases h⟩
  | true =>
      by_cases hplace : σ.place = .hidden
      · exact Or.inr ⟨by simp [hplace], fun _ => Or.inl hplace⟩
      · rw [if_pos (by simp [hplace])]
        cases hget : macros.get? l.text with
        | none => exact Or.inl ⟨rfl, [⟨l.text, .written⟩], by simp, rfl⟩
        | some body =>
            cases body with
            | nil => exact Or.inr ⟨rfl, fun _ => Or.inr rfl⟩
            | cons m ms =>
                exact Or.inl ⟨rfl, (m :: ms).map fun m => ⟨m.text, .expanded⟩, by simp, rfl⟩

theorem partsOf_of_plain (macros : MacroTable) (σ : Layout) {ls : List Lexeme}
    (h : ∀ l ∈ ls, l.isSemantic = false) :
    σ.partsOf macros ls = Part.ofLiminals (ls.map Lexeme.text) := by
  induction ls generalizing σ with
  | nil => rfl
  | cons l ls ih =>
      obtain ⟨hl, hls⟩ := List.forall_mem_cons.mp h
      rw [partsOf, lexemeParts_of_not_semantic macros σ hl, ih _ hls]
      rfl

end Layout

/-- A lexeme whose text tells what it does where it is liminal. -/
def Lexeme.Told (l : Lexeme) : Prop :=
  match l.kind with
  | .lineEnd => Liminal.ofText l.text = .lineEnd
  | .whitespace => Liminal.ofText l.text = .blank
  | .comment => Liminal.ofText l.text = if l.isDirective then .directive else .comment
  | .continuation => Liminal.ofText l.text = .mark
  | .separator => Liminal.ofText l.text = .separator
  | _ => Liminal.ofText l.text ≠ .lineEnd

theorem Lexeme.Told.role {l : Lexeme} (h : l.Told) (hl : l.kind ≠ .lineEnd) :
    (l.role = .whitespace → Liminal.ofText l.text = .blank) ∧
    (l.role = .comment →
      Liminal.ofText l.text = if l.isDirective then .directive else .comment) ∧
    (l.role = .continuation → Liminal.ofText l.text = .mark) ∧
    (l.role = .separator → Liminal.ofText l.text = .separator) ∧
    Liminal.ofText l.text ≠ .lineEnd := by
  unfold Told at h
  unfold Lexeme.role
  cases hkind : l.kind <;> simp_all [Lexeme.Kind.role]
  split <;> simp

theorem Lexeme.Told.lineEnd {e : Lexeme} (h : e.Told) (he : e.kind = .lineEnd) :
    e.role = .whitespace ∧ e.isSemantic = false ∧ Liminal.ofText e.text = .lineEnd := by
  have hrole : e.role = .whitespace := by simp [Lexeme.role, he, Lexeme.Kind.role]
  refine ⟨hrole, by simp [Lexeme.isSemantic, hrole], ?_⟩
  simpa [Lexeme.Told, he] using h

theorem Lexeme.isDirective_of_role {l : Lexeme} (h : l.role ≠ .comment) :
    l.isDirective = false := by
  cases hkind : l.kind <;> simp_all [isDirective, role, Kind.role]

/-- Liminal text at a margin that is not white space ends the margin. -/
theorem Lexeme.Told.ends_margin {l : Lexeme} (h : l.Told) (hl : l.kind ≠ .lineEnd)
    (hnot : l.isWhitespace = false) (hname : l.isSemantic = true → Liminal.ofText l.text = .name)
    (opened : Bool) :
    LinePlace.next opened .margin (.ofText l.text) ≠ .margin ∧
      (Liminal.ofText l.text == .directive) = l.isDirective := by
  obtain ⟨_, hcomment, hmark, hseparator, _⟩ := h.role hl
  have hother : l.role ≠ .comment → l.isDirective = false := isDirective_of_role
  cases hrole : l.role with
  | whitespace => simp [isWhitespace, hrole] at hnot
  | comment =>
      rw [hcomment hrole]
      cases l.isDirective <;> exact ⟨(fun h => by cases h), rfl⟩
  | separator =>
      rw [hseparator hrole, hother (by simp [hrole])]
      exact ⟨(fun h => by cases h), rfl⟩
  | continuation =>
      rw [hmark hrole, hother (by simp [hrole])]
      exact ⟨(fun h => by cases h), rfl⟩
  | semantic =>
      rw [hname (by simp [isSemantic, hrole]), hother (by simp [hrole])]
      exact ⟨(fun h => by cases h), rfl⟩

/-- The lexemes of a line, or of an end of it. -/
inductive Row : List Lexeme → Prop
  | last {e : Lexeme} (he : e.kind = .lineEnd) (htold : e.Told) : Row [e]
  | cons {l : Lexeme} {ls : List Lexeme} (hl : l.kind ≠ .lineEnd) (htold : l.Told)
      (h : Row ls) : Row (l :: ls)

/-- An invocation that is replaced by nothing can be told from other liminal text. -/
def MacroTable.EmptiesNamed (macros : MacroTable) : Prop :=
  ∀ name, macros.get? name = some [] → Liminal.ofText name = .name

theorem directiveText?_cons (l : Lexeme) (ls : List Lexeme) :
    directiveText? (l :: ls) =
      if l.isWhitespace then directiveText? ls
      else if l.isDirective then some l.text
      else none := by
  unfold directiveText?
  cases hwhite : l.isWhitespace with
  | true =>
      have hrole : l.role = .whitespace := by simpa [Lexeme.isWhitespace] using hwhite
      have hliminal : l.isLiminal = true := by simp [Lexeme.isLiminal, hrole]
      simp [hliminal, hwhite]
  | false =>
      cases hliminal : l.isLiminal with
      | true => simp [hliminal, hwhite]
      | false =>
          have hdirective : l.isDirective = false := by
            refine Lexeme.isDirective_of_role fun hrole => ?_
            simp [Lexeme.isLiminal, hrole] at hliminal
          simp [hliminal, hdirective]

namespace Layout

variable {macros : MacroTable} {σ : Layout}

theorem next_ne_margin {opened : Bool} {p : LinePlace} {k : Liminal} (hp : p ≠ .margin)
    (hk : k ≠ .lineEnd) : p.next opened k ≠ .margin := by
  cases p <;> cases k <;> cases opened <;> first | decide | exact absurd rfl hp | exact absurd rfl hk

theorem plain_after_of_ne_margin {ls : List Lexeme} (hrow : Row ls) (hplace : σ.place ≠ .margin) :
    (σ.after macros ls).plain = σ.plain := by
  induction hrow generalizing σ with
  | @last e he htold =>
      obtain ⟨_, hnot, _⟩ := htold.lineEnd he
      rw [after_cons, lexemeParts_of_not_semantic macros σ hnot]
      exact plain_addLiminal (Or.inl hplace)
  | @cons l ls hl htold hrow ih =>
      rw [after_cons]
      rcases lexemeParts_cases macros σ l with ⟨_, ws, hne, hparts⟩ | ⟨hparts, _⟩
      · obtain ⟨hinside, _, hplain⟩ := run_tokens (σ := σ) (Or.inl hne)
        rw [hparts, ih (by rw [hinside]; decide), hplain]
      · have hnext : (σ.addLiminal l.text).place ≠ .margin :=
          next_ne_margin hplace (htold.role hl).2.2.2.2
        rw [hparts]
        exact (ih hnext).trans (plain_addLiminal (Or.inl hplace))

/-- Liminal text at the front of a line leads no further. -/
theorem front_of_isLiminal {l : Lexeme} (hl : l.kind ≠ .lineEnd) (htold : l.Told)
    (hliminal : l.isLiminal = true) (hplace : σ.place = .margin ∨ σ.place = .front) :
    (σ.addLiminal l.text).place = .margin ∨ (σ.addLiminal l.text).place = .front := by
  obtain ⟨hwhite, hcomment, _, hseparator, _⟩ := htold.role hl
  rw [place_addLiminal]
  cases hrole : l.role with
  | whitespace =>
      rw [hwhite hrole]
      exact hplace.imp (fun h => by rw [h]; rfl) fun h => by rw [h]; rfl
  | comment =>
      rw [hcomment hrole]
      right
      split <;> rcases hplace with hplace | hplace <;> rw [hplace] <;> rfl
  | separator =>
      rw [hseparator hrole]
      right
      rcases hplace with hplace | hplace <;> rw [hplace] <;> rfl
  | continuation => simp [Lexeme.isLiminal, hrole] at hliminal
  | semantic => simp [Lexeme.isLiminal, hrole] at hliminal

/-- Liminal text in front of the content of a line closes no statement. -/
theorem addLiminal_of_front (hplace : σ.place = .margin ∨ σ.place = .front) (t : Text) :
    (σ.addLiminal t).group = σ.group ∧ (σ.addLiminal t).closed = σ.closed :=
  addLiminal_of_open (.inl (LinePlace.closes_of_front hplace _))

/-- The first mark of a line leads inside of it. -/
theorem inside_of_mark (hplace : σ.place = .margin ∨ σ.place = .front) :
    (σ.addLiminal Continuation.mark).place = .inside ∧
      (σ.addLiminal Continuation.mark).group = σ.group := by
  refine ⟨?_, (addLiminal_of_front hplace _).1⟩
  rw [place_addLiminal]
  rcases hplace with hplace | hplace <;> rw [hplace] <;> rfl

/-- From its margin on a line is plain just when it is no directive. -/
theorem plain_after_of_margin (hmacros : macros.EmptiesNamed) {ls : List Lexeme} (hrow : Row ls)
    (hplace : σ.place = .margin) (hplain : σ.plain = true) :
    (σ.after macros ls).plain = (directiveText? ls).isNone := by
  induction hrow generalizing σ with
  | @last e he htold =>
      obtain ⟨hrole, hnot, hend⟩ := htold.lineEnd he
      have hkept : (σ.addLiminal e.text).plain = σ.plain :=
        plain_addLiminal (Or.inr (by rw [hend]; decide))
      rw [after_cons, lexemeParts_of_not_semantic macros σ hnot, directiveText?_cons,
        if_pos (by simp [Lexeme.isWhitespace, hrole])]
      exact hkept.trans hplain
  | @cons l ls hl htold hrow ih =>
      rw [after_cons, directiveText?_cons]
      cases hwhite : l.isWhitespace with
      | true =>
          have hrole : l.role = .whitespace := by simpa [Lexeme.isWhitespace] using hwhite
          have hblank := (htold.role hl).1 hrole
          have hnext : (σ.addLiminal l.text).place = .margin := by
            rw [place_addLiminal, hplace, hblank]
            rfl
          have hkept : (σ.addLiminal l.text).plain = σ.plain :=
            plain_addLiminal (Or.inr (by rw [hblank]; decide))
          rw [lexemeParts_of_not_semantic macros σ (by simp [Lexeme.isSemantic, hrole])]
          exact ih hnext (hkept.trans hplain)
      | false =>
          -- the first lexeme that is not white space decides
          have hdecided : (σ.run (σ.lexemeParts macros l)).place ≠ .margin ∧
              (σ.run (σ.lexemeParts macros l)).plain = !l.isDirective := by
            rcases lexemeParts_cases macros σ l with
              ⟨hsemantic, ws, hne, hparts⟩ | ⟨hparts, hempty⟩
            · obtain ⟨hinside, _, hkept⟩ := run_tokens (σ := σ) (Or.inl hne)
              have hrole : l.role = .semantic := by simpa [Lexeme.isSemantic] using hsemantic
              rw [hparts, hinside, hkept, hplain, Lexeme.isDirective_of_role (by simp [hrole])]
              exact ⟨(fun h => by cases h), rfl⟩
            · have hname : l.isSemantic = true → Liminal.ofText l.text = .name := by
                intro hsemantic
                rcases hempty hsemantic with hhidden | hget
                · rw [hplace] at hhidden
                  cases hhidden
                · exact hmacros _ hget
              obtain ⟨hnext, hdirective⟩ := htold.ends_margin hl hwhite hname (!σ.group.isEmpty)
              have hkept : (σ.addLiminal l.text).plain = !l.isDirective := by
                simp [addLiminal, hplain, hplace, hdirective]
              have hplaced : (σ.addLiminal l.text).place =
                  LinePlace.next (!σ.group.isEmpty) .margin (.ofText l.text) := by
                rw [place_addLiminal, hplace]
              rw [hparts]
              exact ⟨fun hmargin => hnext (hplaced.symm.trans hmargin), hkept⟩
          rw [plain_after_of_ne_margin hrow hdecided.1, hdecided.2]
          cases l.isDirective <;> rfl

end Layout

end FreeForm
