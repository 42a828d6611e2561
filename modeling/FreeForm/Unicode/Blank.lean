namespace FreeForm.Unicode

/-!
# White space

The property White_Space. It decides how the words of a directive are cut and trimmed; between
lexemes of source text only the space and the tab are blank.
-/

def isWhiteSpace (c : Char) : Bool :=
  let n := c.toNat
  n == 0x20 || (0x09 ≤ n && n ≤ 0x0d) || n == 0x85 || n == 0xa0 || n == 0x1680 ||
    (0x2000 ≤ n && n ≤ 0x200a) || n == 0x2028 || n == 0x2029 || n == 0x202f || n == 0x205f ||
    n == 0x3000

end FreeForm.Unicode
