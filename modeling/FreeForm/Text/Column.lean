import FreeForm.Text

namespace FreeForm

/-!
# Columns

A text in a column of a listing is filled up with spaces to the column's width, or cut to it.
-/

namespace Text

/-- As many spaces as say by how much `width` exceeds the text. -/
def padding (width : Nat) (t : Text) : Text :=
  List.replicate (width - t.length) ' '

/-- The text at the left of a column. -/
def padRight (width : Nat) (t : Text) : Text :=
  t ++ padding width t

/-- The text at the right of a column. -/
def padLeft (width : Nat) (t : Text) : Text :=
  padding width t ++ t

/-- The text in the middle of a column; an odd space goes to its right. -/
def center (width : Nat) (t : Text) : Text :=
  let before := (padding width t).length / 2
  List.replicate before ' ' ++ t ++ List.replicate ((padding width t).length - before) ' '

theorem length_padRight (width : Nat) (t : Text) :
    (padRight width t).length = max width t.length := by
  simp only [padRight, padding, List.length_append, List.length_replicate]
  omega

theorem length_padLeft (width : Nat) (t : Text) :
    (padLeft width t).length = max width t.length := by
  simp only [padLeft, padding, List.length_append, List.length_replicate]
  omega

theorem length_center (width : Nat) (t : Text) :
    (center width t).length = max width t.length := by
  simp only [center, padding, List.length_append, List.length_replicate]
  omega

end Text

end FreeForm
