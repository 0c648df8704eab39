/-!
# Boundary lists

A set of numbers given by the ascending list of the places where membership changes: `[a, b, c, d]`
holds `a ≤ n < b` and `c ≤ n < d`.  Character classes are tables of this form.
-/

set_option autoImplicit false

namespace ActionScript

/-- Is `n` in the set with these boundaries? -/
def within : List Nat → Nat → Bool
  | [], _ => false
  | b :: bs, n => b ≤ n && !within bs n

end ActionScript
