import FreeForm.Scanner

namespace FreeForm

/-!
# Macro tables

Object-like macros in the order of their last definitions. A definition binds a name to the semantic
lexemes of its body and moves the name to the end; one whose body does not scan changes nothing.
Names match exactly.
-/

structure MacroTable where
  entries : List (Text × List Lexeme)
  nodup : (entries.map Prod.fst).Nodup
  deriving DecidableEq

namespace MacroTable

def empty : MacroTable := ⟨[], List.nodup_nil⟩

instance : Inhabited MacroTable := ⟨empty⟩

/-- The bound names in the order of their last definitions. -/
def names (t : MacroTable) : List Text :=
  t.entries.map Prod.fst

def get? (t : MacroTable) (name : Text) : Option (List Lexeme) :=
  t.entries.lookup name

def contains (t : MacroTable) (name : Text) : Bool :=
  (t.get? name).isSome

def size (t : MacroTable) : Nat :=
  t.entries.length

def isEmpty (t : MacroTable) : Bool :=
  t.entries.isEmpty

theorem nodup_filter {entries : List (Text × List Lexeme)} (p : Text × List Lexeme → Bool)
    (h : (entries.map Prod.fst).Nodup) : ((entries.filter p).map Prod.fst).Nodup :=
  h.sublist (List.filter_sublist.map Prod.fst)

def erase (t : MacroTable) (name : Text) : MacroTable :=
  ⟨t.entries.filter (·.1 != name), nodup_filter _ t.nodup⟩

/-- Binds a name to a body and moves it to the end. -/
def insert (t : MacroTable) (name : Text) (body : List Lexeme) : MacroTable where
  entries := (t.erase name).entries ++ [(name, body)]
  nodup := by
    rw [List.map_append, List.nodup_append]
    refine ⟨(t.erase name).nodup, by simp, ?_⟩
    simp [erase]

@[simp] theorem names_erase (t : MacroTable) (name : Text) :
    (t.erase name).names = t.names.filter (· != name) := by
  simp [names, erase, List.filter_map, Function.comp_def]

@[simp] theorem names_insert (t : MacroTable) (name : Text) (body : List Lexeme) :
    (t.insert name body).names = t.names.filter (· != name) ++ [name] := by
  simp [names, insert, erase, List.filter_map, Function.comp_def]

/-- Removing a name leaves what the other names are bound to. -/
theorem lookup_filter_ne (entries : List (Text × List Lexeme)) (name other : Text) :
    (entries.filter (·.1 != name)).lookup other =
      if other = name then none else entries.lookup other := by
  induction entries with
  | nil => simp
  | cons entry entries ih =>
      obtain ⟨key, body⟩ := entry
      by_cases hk : key = name
      · subst hk
        by_cases ho : other = key
        · simp [ho] at ih ⊢
          exact ih
        · have hne : (other == key) = false := by simpa using ho
          simp [List.lookup_cons, hne, ho] at ih ⊢
          exact ih
      · by_cases ho : other = key
        · subst ho
          simp [hk]
        · have hne : (other == key) = false := by simpa using ho
          simp [List.lookup_cons, hk, hne, ih]

@[simp] theorem get?_erase (t : MacroTable) (name other : Text) :
    (t.erase name).get? other = if other = name then none else t.get? other :=
  lookup_filter_ne t.entries name other

theorem get?_insert (t : MacroTable) (name other : Text) (body : List Lexeme) :
    (t.insert name body).get? other = if other = name then some body else t.get? other := by
  have h := lookup_filter_ne t.entries name other
  by_cases ho : other = name
  · subst ho
    simp [get?, insert, erase, List.lookup_append, h]
  · have hne : (other == name) = false := by simpa using ho
    simp [get?, insert, erase, List.lookup_append, h, ho, List.lookup_cons, hne]

/-- The lexemes that a definition with the given body binds its name to. White space and comments,
separators and continuation marks in the body are dropped. -/
def scanBody (body : Text) : Except LexError (List Lexeme) :=
  (scanLine none (body ++ ['\n'])).map fun scanned => scanned.lexemes.filter (·.isSemantic)

def define (t : MacroTable) (name body : Text) : Except LexError MacroTable :=
  (scanBody body).map (t.insert name)

end MacroTable

end FreeForm
