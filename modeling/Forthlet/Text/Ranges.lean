/-!
# Sets of characters given by ranges

A property of characters is listed as closed ranges of code points.
-/
namespace Forthlet.Text

abbrev Ranges := List (Nat × Nat)

namespace Ranges

def contains (rs : Ranges) (c : Char) : Bool :=
  rs.any fun (first, last) => first ≤ c.toNat && c.toNat ≤ last

end Ranges

end Forthlet.Text
