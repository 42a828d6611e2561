import FreeForm.Fault

namespace FreeForm

/-!
# Sources

A source is a list of physical lines, each with its terminator, or with the fault that kept it from
being read. Bytes are cut into lines first and then decoded line by line; nothing is read behind the
first line that is not valid UTF-8.
-/

abbrev SourceLine := Except Fault Text

abbrev Source := List SourceLine

namespace Source

def lineFeed : UInt8 := 10

def ofText (t : Text) : Source :=
  t.lines.map .ok

/-- Decodes lines up to the first that is not valid UTF-8. -/
def decode : List (List UInt8) → Source
  | [] => []
  | bytes :: rest =>
      match Text.ofUtf8? bytes with
      | some line => .ok line :: decode rest
      | none => [.error .invalidUtf8]

def ofBytes (bytes : List UInt8) : Source :=
  decode (splitAfter lineFeed bytes)

/-- The lines in front of the first fault. -/
def readable : Source → List Text
  | .ok line :: rest => line :: readable rest
  | _ => []

theorem readable_ofText (t : Text) : readable (ofText t) = t.lines := by
  unfold ofText
  induction t.lines with
  | nil => rfl
  | cons line lines ih => simp [readable, ih]

end Source

end FreeForm
