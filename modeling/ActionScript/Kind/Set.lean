import ActionScript.Kind.Basic

/-!
# Sets of kinds

A set of kinds is a bit mask over the order of kinds.  Rules use sets for the tokens that can open
a construct and for those at which recovery stops.

* `KindSet.contains_union`, `KindSet.contains_ofList`: membership is what it says.
-/

set_option autoImplicit false

namespace ActionScript

/-- A set of kinds: bit `i` stands for the kind with ordinal `i`. -/
structure KindSet where
  mask : Nat
  deriving DecidableEq, Repr

namespace KindSet

/-- The set without members. -/
def empty : KindSet := ⟨0⟩

/-- The set with one member. -/
def single (k : Kind) : KindSet := ⟨1 <<< k.ordinal⟩

/-- The members of either set. -/
def union (a b : KindSet) : KindSet := ⟨a.mask ||| b.mask⟩

/-- The kinds of a list. -/
def ofList (ks : List Kind) : KindSet := ks.foldr (fun k s => (single k).union s) empty

/-- Is `k` a member? -/
def contains (s : KindSet) (k : Kind) : Bool := s.mask.testBit k.ordinal

/-- The members in the order of kinds. -/
def members (s : KindSet) : List Kind := Kind.all.filter s.contains

@[simp]
theorem contains_empty (k : Kind) : empty.contains k = false := by
  simp [contains, empty]

@[simp]
theorem contains_union (a b : KindSet) (k : Kind) :
    (a.union b).contains k = (a.contains k || b.contains k) := by
  simp [contains, union, Nat.testBit_or]

theorem ordinal_inj {j k : Kind} (h : j.ordinal = k.ordinal) : j = k := by
  rw [← j.ofNat_ctorIdx, ← k.ofNat_ctorIdx]
  exact congrArg Kind.ofNat h

@[simp]
theorem contains_single (j k : Kind) : (single j).contains k = decide (j = k) := by
  simp only [contains, single, Nat.one_shiftLeft, Nat.testBit_two_pow]
  exact decide_eq_decide.mpr ⟨ordinal_inj, fun h => h ▸ rfl⟩

@[simp]
theorem contains_ofList (ks : List Kind) (k : Kind) :
    (ofList ks).contains k = decide (k ∈ ks) := by
  induction ks with
  | nil => simp [ofList]
  | cons j ks ih =>
    rw [ofList, List.foldr_cons, contains_union, contains_single, ← ofList, ih]
    by_cases h : k = j <;> simp [h, eq_comm]

end KindSet

end ActionScript
