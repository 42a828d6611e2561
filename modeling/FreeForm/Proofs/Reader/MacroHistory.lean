import Mathlib.Data.List.Basic
import Mathlib.Data.List.Induction
import FreeForm.MacroTable

namespace FreeForm

/-!
# A macro table and its history

What a macro table holds can be told from what was done to it. A name is bound if the last operation
that succeeded on it was a definition, to the lexemes of that definition, and the names stand in the
order of these definitions. What came before them, and a definition whose body does not scan, leaves
no trace.
-/

namespace MacroTable

/-- What can be done to a macro table. -/
inductive Operation where
  /-- Binds a name to what a body scans as. -/
  | define (name body : Text)
  /-- Binds a name to lexemes that are given. -/
  | defineLexemes (name : Text) (lexemes : List Lexeme)
  | undef (name : Text)
  deriving DecidableEq, Repr

/-- Carries out an operation. A definition that fails leaves the table as it was. -/
def perform (t : MacroTable) : Operation → MacroTable
  | .define name body =>
      match t.define name body with
      | .ok t' => t'
      | .error _ => t
  | .defineLexemes name lexemes => t.insert name lexemes
  | .undef name => t.erase name

/-- The table that some operations leave, in order, of one that is empty. -/
def ofOperations (ops : List Operation) : MacroTable :=
  ops.foldl perform empty

theorem ofOperations_concat (ops : List Operation) (op : Operation) :
    ofOperations (ops ++ [op]) = (ofOperations ops).perform op :=
  List.foldl_concat perform empty op ops

namespace Operation

/-- A definition that succeeds, and what it binds its name to. The body is scanned as a line. -/
inductive Binds : Operation → Text → List Lexeme → Prop
  | define {name body : Text} {scanned : ScannedLine}
      (hscan : scanLine none (body ++ ['\n']) = .ok scanned) :
      Binds (.define name body) name (scanned.lexemes.filter (·.isSemantic))
  | defineLexemes (name : Text) (lexemes : List Lexeme) :
      Binds (.defineLexemes name lexemes) name lexemes

/-- Whether an operation succeeds on a name. To remove a name that is not bound leaves it unbound, so
that it does not matter whether this counts as a success. -/
def Settles (op : Operation) (name : Text) : Prop :=
  (∃ lexemes, op.Binds name lexemes) ∨ op = .undef name

variable {op : Operation} {name other : Text} {lexemes others : List Lexeme}

theorem Binds.settles (h : op.Binds name lexemes) : op.Settles name :=
  .inl ⟨lexemes, h⟩

theorem Binds.unique (h : op.Binds name lexemes) (h' : op.Binds other others) :
    other = name ∧ others = lexemes := by
  cases h with
  | define hscan =>
      cases h' with
      | define hscan' =>
          rw [hscan] at hscan'
          cases hscan'
          exact ⟨rfl, rfl⟩
  | defineLexemes =>
      cases h'
      exact ⟨rfl, rfl⟩

/-- A definition succeeds on its own name only. -/
theorem Binds.settles_iff (h : op.Binds name lexemes) : op.Settles other ↔ other = name := by
  constructor
  · rintro (⟨others, hother⟩ | rfl)
    · exact (h.unique hother).1
    · cases h
  · rintro rfl
    exact h.settles

theorem settles_undef : (Operation.undef name).Settles other ↔ other = name := by
  constructor
  · rintro (⟨others, hother⟩ | hundef)
    · cases hother
    · exact (undef.inj hundef).symm
  · rintro rfl
    exact .inr rfl

end Operation

open Operation

/-- All that an operation can do to a table. -/
inductive Performs (t : MacroTable) (op : Operation) : MacroTable → Prop
  | bound {name : Text} {lexemes : List Lexeme} (h : op.Binds name lexemes) :
      Performs t op (t.insert name lexemes)
  | erased {name : Text} (h : op = .undef name) : Performs t op (t.erase name)
  | refused (h : ∀ name, ¬op.Settles name) : Performs t op t

theorem performs (t : MacroTable) (op : Operation) : Performs t op (t.perform op) := by
  cases op with
  | define name body =>
      simp only [perform, MacroTable.define, scanBody]
      cases hscan : scanLine none (body ++ ['\n']) with
      | ok scanned => exact .bound (.define hscan)
      | error e =>
          refine .refused fun other => ?_
          rintro (⟨_, hbinds⟩ | hundef)
          · cases hbinds with
            | define hscan' =>
                rw [hscan] at hscan'
                cases hscan'
          · cases hundef
  | defineLexemes name lexemes => exact .bound (.defineLexemes name lexemes)
  | undef name => exact .erased rfl

/-- The operation at a place of a history is the last that succeeded on a name, and bound it. -/
structure Stands (ops : List Operation) (place : Nat) (name : Text) (lexemes : List Lexeme) :
    Prop where
  binds : ∃ op, ops[place]? = some op ∧ op.Binds name lexemes
  last : ∀ op ∈ ops.drop (place + 1), ¬op.Settles name

section Step

variable {ops : List Operation} {op : Operation} {place : Nat} {name : Text} {lexemes : List Lexeme}

theorem Stands.lt_length (h : Stands ops place name lexemes) : place < ops.length := by
  obtain ⟨_, hop, _⟩ := h.binds
  exact (List.getElem?_eq_some_iff.mp hop).1

theorem not_stands_nil : ¬Stands [] place name lexemes :=
  fun h => Nat.not_lt_zero _ h.lt_length

/-- One more operation stands itself, and leaves standing what it does not succeed on. -/
theorem stands_concat : Stands (ops ++ [op]) place name lexemes ↔
    place = ops.length ∧ op.Binds name lexemes ∨
      Stands ops place name lexemes ∧ ¬op.Settles name := by
  constructor
  · intro h
    have hplace := h.lt_length
    obtain ⟨⟨latest, hlatest, hbinds⟩, hlast⟩ := h
    rw [List.length_append, List.length_singleton] at hplace
    rcases Nat.lt_succ_iff_lt_or_eq.mp hplace with hlt | rfl
    · rw [List.getElem?_append_left hlt] at hlatest
      rw [List.drop_append_of_le_length hlt] at hlast
      refine .inr ⟨⟨⟨latest, hlatest, hbinds⟩, fun later hlater => ?_⟩, ?_⟩
      · exact hlast later (List.mem_append_left _ hlater)
      · exact hlast op (List.mem_append_right _ List.mem_cons_self)
    · rw [List.getElem?_concat_length] at hlatest
      cases hlatest
      exact .inl ⟨rfl, hbinds⟩
  · rintro (⟨rfl, hbinds⟩ | ⟨h, hop⟩)
    · refine ⟨⟨op, List.getElem?_concat_length, hbinds⟩, fun later hlater => ?_⟩
      rw [List.drop_of_length_le (by simp)] at hlater
      cases hlater
    · have hlt := h.lt_length
      obtain ⟨⟨latest, hlatest, hbinds⟩, hlast⟩ := h
      refine ⟨⟨latest, ?_, hbinds⟩, fun later hlater => ?_⟩
      · rw [List.getElem?_append_left hlt, hlatest]
      · rw [List.drop_append_of_le_length hlt] at hlater
        rcases List.mem_append.mp hlater with hlater | hlater
        · exact hlast later hlater
        · rw [List.mem_singleton.mp hlater]
          exact hop

/-- A table holds what stands in a history, in the order in which it was put there. -/
structure Reflects (t : MacroTable) (ops : List Operation) : Prop where
  get?_iff : ∀ name lexemes, t.get? name = some lexemes ↔ ∃ place, Stands ops place name lexemes
  ordered : t.names.Pairwise fun a b => ∀ i j ls ms,
    Stands ops i a ls → Stands ops j b ms → i < j

theorem reflects_empty : empty.Reflects [] := by
  refine ⟨fun name lexemes => ?_, List.Pairwise.nil⟩
  constructor
  · intro h
    cases h
  · rintro ⟨place, h⟩
    exact absurd h not_stands_nil

variable {t : MacroTable}

/-- Names that an operation does not succeed on keep their order. -/
theorem Reflects.ordered_concat (h : t.Reflects ops) {names : List Text}
    (hnames : names.Sublist t.names) (hop : ∀ name ∈ names, ¬op.Settles name) :
    names.Pairwise fun a b => ∀ i j ls ms,
      Stands (ops ++ [op]) i a ls → Stands (ops ++ [op]) j b ms → i < j := by
  have hkept : ∀ name ∈ names, ∀ place lexemes,
      Stands (ops ++ [op]) place name lexemes → Stands ops place name lexemes := by
    intro name hname place lexemes hstands
    rcases stands_concat.mp hstands with ⟨_, hbinds⟩ | ⟨hbefore, _⟩
    · exact absurd hbinds.settles (hop name hname)
    · exact hbefore
  refine (h.ordered.sublist hnames).imp_of_mem ?_
  intro a b ha hb hab i j ls ms hi hj
  exact hab i j ls ms (hkept a ha i ls hi) (hkept b hb j ms hj)

theorem Reflects.insert (h : t.Reflects ops) (hop : op.Binds name lexemes) :
    (t.insert name lexemes).Reflects (ops ++ [op]) := by
  constructor
  · intro other others
    simp only [get?_insert, stands_concat, hop.settles_iff]
    by_cases hother : other = name
    · subst hother
      rw [if_pos rfl]
      constructor
      · intro hothers
        cases hothers
        exact ⟨ops.length, .inl ⟨rfl, hop⟩⟩
      · rintro ⟨place, ⟨_, hbinds⟩ | ⟨_, hne⟩⟩
        · rw [(hop.unique hbinds).2]
        · exact absurd rfl hne
    · rw [if_neg hother, h.get?_iff]
      constructor
      · rintro ⟨place, hstands⟩
        exact ⟨place, .inr ⟨hstands, hother⟩⟩
      · rintro ⟨place, ⟨_, hbinds⟩ | ⟨hstands, _⟩⟩
        · exact absurd (hop.unique hbinds).1 hother
        · exact ⟨place, hstands⟩
  · rw [names_insert, List.pairwise_append]
    have hfront : ∀ a ∈ t.names.filter (· != name), ¬op.Settles a := by
      intro a ha
      rw [hop.settles_iff]
      simpa using (List.mem_filter.mp ha).2
    refine ⟨h.ordered_concat List.filter_sublist hfront, List.pairwise_singleton _ _, ?_⟩
    intro a ha b hb i j ls ms hi hj
    rw [List.mem_singleton.mp hb] at hj
    -- the name at the end stands at the last place, and nothing else does
    rcases stands_concat.mp hi with ⟨_, hbinds⟩ | ⟨hi, _⟩
    · exact absurd hbinds.settles (hfront a ha)
    · rcases stands_concat.mp hj with ⟨rfl, _⟩ | ⟨_, hne⟩
      · exact hi.lt_length
      · exact absurd hop.settles hne

theorem Reflects.erase (h : t.Reflects ops) (name : Text) :
    (t.erase name).Reflects (ops ++ [.undef name]) := by
  constructor
  · intro other others
    simp only [get?_erase, stands_concat, settles_undef]
    by_cases hother : other = name
    · subst hother
      rw [if_pos rfl]
      constructor
      · intro hnone
        cases hnone
      · rintro ⟨place, ⟨_, hbinds⟩ | ⟨_, hne⟩⟩
        · cases hbinds
        · exact absurd rfl hne
    · rw [if_neg hother, h.get?_iff]
      constructor
      · rintro ⟨place, hstands⟩
        exact ⟨place, .inr ⟨hstands, hother⟩⟩
      · rintro ⟨place, ⟨_, hbinds⟩ | ⟨hstands, _⟩⟩
        · cases hbinds
        · exact ⟨place, hstands⟩
  · rw [names_erase]
    refine h.ordered_concat List.filter_sublist fun a ha => ?_
    rw [settles_undef]
    simpa using (List.mem_filter.mp ha).2

theorem Reflects.refuse (h : t.Reflects ops) (hop : ∀ name, ¬op.Settles name) :
    t.Reflects (ops ++ [op]) := by
  constructor
  · intro name lexemes
    rw [h.get?_iff]
    refine exists_congr fun place => ?_
    rw [stands_concat]
    constructor
    · intro hstands
      exact .inr ⟨hstands, hop name⟩
    · rintro (⟨_, hbinds⟩ | ⟨hstands, _⟩)
      · exact absurd hbinds.settles (hop name)
      · exact hstands
  · exact h.ordered_concat (List.Sublist.refl _) fun name _ => hop name

/-- One operation more is reflected by the table that it leaves. -/
theorem Reflects.perform (h : t.Reflects ops) (op : Operation) :
    (t.perform op).Reflects (ops ++ [op]) := by
  have hperforms := t.performs op
  generalize t.perform op = t' at hperforms ⊢
  cases hperforms with
  | bound hop => exact h.insert hop
  | erased hop =>
      subst hop
      exact h.erase _
  | refused hop => exact h.refuse hop

end Step

theorem reflects_ofOperations (ops : List Operation) : (ofOperations ops).Reflects ops := by
  induction ops using List.reverseRecOn with
  | nil => exact reflects_empty
  | append_singleton ops op ih =>
      rw [ofOperations_concat]
      exact ih.perform op

theorem mem_names {t : MacroTable} {name : Text} : name ∈ t.names ↔ t.contains name = true := by
  unfold names contains get?
  induction t.entries with
  | nil => simp
  | cons entry entries ih =>
      obtain ⟨key, body⟩ := entry
      rw [List.map_cons, List.mem_cons, List.lookup_cons]
      by_cases hkey : name = key
      · simp [hkey]
      · have hne : (name == key) = false := by simpa using hkey
        rw [hne, ih]
        exact or_iff_right hkey

/-- What a table holds is what its history says: each name is bound to the lexemes of the definition
that was the last success on it, if that was a definition, and the names stand in the order of these
definitions. A definition whose body does not scan changes nothing. -/
theorem ofOperations_history (ops : List Operation) :
    (∀ name lexemes, (ofOperations ops).get? name = some lexemes ↔
      ∃ place, Stands ops place name lexemes) ∧
    (∀ name, (ofOperations ops).contains name = true ↔
      ∃ place lexemes, Stands ops place name lexemes) ∧
    (∀ name, name ∈ (ofOperations ops).names ↔ (ofOperations ops).contains name = true) ∧
    (ofOperations ops).names.Nodup ∧
    ((ofOperations ops).names.Pairwise fun a b => ∀ i j ls ms,
      Stands ops i a ls → Stands ops j b ms → i < j) ∧
    (ofOperations ops).size = (ofOperations ops).names.length ∧
    ((ofOperations ops).isEmpty = true ↔ (ofOperations ops).names = []) ∧
    ∀ name body e, scanLine none (body ++ ['\n']) = .error e →
      ofOperations (ops ++ [.define name body]) = ofOperations ops := by
  have hreflects := reflects_ofOperations ops
  have hbound : ∀ name, (ofOperations ops).contains name = true ↔
      ∃ place lexemes, Stands ops place name lexemes := by
    intro name
    rw [contains, Option.isSome_iff_exists, exists_comm]
    exact exists_congr (hreflects.get?_iff name)
  refine ⟨hreflects.get?_iff, hbound, fun name => mem_names, (ofOperations ops).nodup,
    hreflects.ordered, ?_, ?_, ?_⟩
  · exact (List.length_map _).symm
  · rw [isEmpty, List.isEmpty_iff, names, List.map_eq_nil_iff]
  · intro name body e hscan
    rw [ofOperations_concat]
    simp only [perform, MacroTable.define, scanBody, hscan, Except.map]

/-- A name that is defined again moves behind the others, and one whose new body does not scan stays
as it is. -/
example :
    let a := "A".toList
    let b := "B".toList
    let d := "D".toList
    (ofOperations [.define a "1 + 2 ! c".toList, .defineLexemes b [], .define d "x".toList,
      .define a "y ;".toList, .define b "^".toList, (.undef d)]).entries =
        [(b, []), (a, [⟨.name, "y".toList⟩])] := by
  decide +kernel

end MacroTable

end FreeForm
