/-!
# Character classes

White space and control characters, as the Unicode properties `White_Space` and `Cc` list them.
Both tables are small enough to be written out in full.
-/

namespace MiniScheme.Text

/-- White space: the 25 code points with the property `White_Space`. -/
def isBlank (c : Char) : Bool :=
  let code := c.toNat
  (9 ≤ code && code ≤ 13) || code == 0x20 || code == 0x85 || code == 0xA0 || code == 0x1680 ||
    (0x2000 ≤ code && code ≤ 0x200A) || code == 0x2028 || code == 0x2029 || code == 0x202F ||
    code == 0x205F || code == 0x3000

/-- Control characters: the code points of general category `Cc`. -/
def isControl (c : Char) : Bool :=
  let code := c.toNat
  code < 0x20 || (0x7F ≤ code && code < 0xA0)

end MiniScheme.Text
