import Mathlib.Computability.Language
import Mathlib.Data.List.TakeWhile
import ActionScript.Proofs.Reading

/-!
# Numbers are read as far as they go

The literals of numbers make up a language, given by an expression: hexadecimal, binary and octal
numbers, integers, and decimal numbers with a point, with an exponent or with both.  A number is
read from left to right, each part as far as it goes, and what is read is the longest literal that
the text opens with: a part that could end earlier is only ever followed by characters that it
cannot take.

One literal depends on what follows: a point behind the integer part belongs to it only if the next
character is neither a point nor `<`.

* `Number.IsLiteral`: the grammar of numbers.
* `Number.isLiteral_scan`: what is read is a literal.
* `Number.prefix_scan`: every literal that the text opens with is part of it.
* `Place.next_number_longest`: **numbers are read as the longest literal that fits.**
-/

set_option autoImplicit false

open scoped Computability

namespace ActionScript.Number

/-! ## The grammar -/

/-- A character of a class. -/
def oneOf (p : Char → Bool) : Language Char := {w | ∃ c, p c = true ∧ w = [c]}

/-- A character. -/
def only (c : Char) : Language Char := oneOf (· == c)

/-- Something that may be missing. -/
def optional (l : Language Char) : Language Char := 1 + l

/-- A decimal digit or a gap. -/
def isSpacedDigit (c : Char) : Bool := c.isDigit || c == '_'

/-- A hexadecimal digit or a gap. -/
def isSpacedHexDigit (c : Char) : Bool := isHexDigit c || c == '_'

/-- `[0-9][0-9_]*` -/
def spaced : Language Char := oneOf Char.isDigit * (oneOf isSpacedDigit)∗

/-- `[eE][+-]?[0-9][0-9_]*` -/
def power : Language Char :=
  oneOf (fun c => c == 'e' || c == 'E') * optional (oneOf fun c => c == '+' || c == '-') * spaced

/-- A number in another base: a zero, the mark of the base, digits and perhaps `n`. -/
def based (mark digit : Char → Bool) : Language Char :=
  only '0' * oneOf mark * (oneOf digit)∗ * optional (only 'n')

/-- `0[xX][0-9a-fA-F_]*n?` -/
def hexadecimal : Language Char := based (fun c => c == 'x' || c == 'X') isSpacedHexDigit

/-- `0[bBoO][0-9_]*n?` -/
def binaryOrOctal : Language Char :=
  based (fun c => c == 'b' || c == 'B' || c == 'o' || c == 'O') isSpacedDigit

/-- `.[0-9][0-9_]*([eE][+-]?[0-9][0-9_]*)?` -/
def pointed : Language Char := only '.' * spaced * optional power

/-- The literals that are so whatever follows them. -/
def settled : Language Char :=
  hexadecimal + binaryOrOctal + spaced * optional (only 'n') + spaced * power + pointed

/-- The digits and the exponent that may stand behind a point. -/
def behindPoint : Language Char := (oneOf isSpacedDigit)∗ * optional power

/-- The text is a number literal where `rest` follows.  A point behind the integer part is not taken
where another point or `<` comes next. -/
def IsLiteral (w rest : Text) : Prop :=
  w ∈ settled ∨ ∃ whole ∈ spaced, ∃ more ∈ behindPoint,
    w = whole ++ '.' :: more ∧ ∀ c ∈ (more ++ rest).head?, c ≠ '.' ∧ c ≠ '<'

/-! ### Reading the grammar -/

section
variable {p : Char → Bool} {c : Char} {w : Text} {l m : Language Char}

theorem mem_oneOf : w ∈ oneOf p ↔ ∃ c, p c = true ∧ w = [c] := Iff.rfl

theorem mem_only : w ∈ only c ↔ w = [c] := by
  simp [only, mem_oneOf]

theorem mem_optional : w ∈ optional l ↔ w = [] ∨ w ∈ l := Iff.rfl

theorem mem_oneOf_mul : w ∈ oneOf p * l ↔ ∃ c more, w = c :: more ∧ p c = true ∧ more ∈ l := by
  rw [Language.mem_mul]
  constructor
  · rintro ⟨_, ⟨c, hc, rfl⟩, more, hmore, rfl⟩
    exact ⟨c, more, rfl, hc, hmore⟩
  · rintro ⟨c, more, rfl, hc, hmore⟩
    exact ⟨[c], ⟨c, hc, rfl⟩, more, hmore, rfl⟩

theorem mem_only_mul : w ∈ only c * l ↔ ∃ more, w = c :: more ∧ more ∈ l := by
  simp [only, mem_oneOf_mul]

/-- A row of characters of a class. -/
theorem mem_oneOf_star : w ∈ (oneOf p)∗ ↔ ∀ c ∈ w, p c = true := by
  rw [Language.mem_kstar]
  constructor
  · rintro ⟨rows, rfl, hrows⟩ c hc
    obtain ⟨row, hrow, hmem⟩ := List.mem_flatten.1 hc
    obtain ⟨d, hd, rfl⟩ := hrows row hrow
    rwa [List.mem_singleton.1 hmem]
  · intro h
    refine ⟨w.map fun c => [c], by simp [← List.flatMap_def], ?_⟩
    rintro _ hrow
    obtain ⟨c, hc, rfl⟩ := List.mem_map.1 hrow
    exact ⟨c, h c hc, rfl⟩

/-- Digits with gaps. -/
theorem mem_spaced :
    w ∈ spaced ↔ ∃ c more, w = c :: more ∧ c.isDigit = true ∧
    ∀ d ∈ more, isSpacedDigit d = true := by
  simp [spaced, mem_oneOf_mul, mem_oneOf_star]

theorem isSpacedDigit_of_mem_spaced (h : w ∈ spaced) : ∀ d ∈ w, isSpacedDigit d = true := by
  obtain ⟨c, more, rfl, hc, hmore⟩ := mem_spaced.1 h
  exact List.forall_mem_cons.2 ⟨by simp [isSpacedDigit, hc], hmore⟩

/-- The sign of an exponent, which may be missing. -/
def IsSign (w : Text) : Prop := w = [] ∨ w = ['+'] ∨ w = ['-']

/-- An exponent is its mark, perhaps a sign, and digits. -/
theorem mem_power : w ∈ power ↔
    ∃ mark sgn ds, w = mark :: (sgn ++ ds) ∧ (mark = 'e' ∨ mark = 'E') ∧ IsSign sgn ∧
      ds ∈ spaced := by
  have hsign (sgn : Text) : sgn ∈ optional (oneOf fun c => c == '+' || c == '-') ↔ IsSign sgn := by
    simp [mem_optional, mem_oneOf, IsSign, or_and_right, exists_or]
  rw [power, mul_assoc, mem_oneOf_mul]
  simp only [Language.mem_mul, hsign, Bool.or_eq_true, beq_iff_eq]
  constructor
  · rintro ⟨mark, _, rfl, hmark, sgn, hsgn, ds, hds, rfl⟩
    exact ⟨mark, sgn, ds, rfl, hmark, hsgn, hds⟩
  · rintro ⟨mark, sgn, ds, rfl, hmark, hsgn, hds⟩
    exact ⟨mark, _, rfl, hmark, sgn, hsgn, ds, hds, rfl⟩

theorem mem_based {mark digit : Char → Bool} :
    w ∈ based mark digit ↔ ∃ x ds n, w = '0' :: x :: (ds ++ n) ∧
    mark x = true ∧ (∀ d ∈ ds, digit d = true) ∧ n ∈ optional (only 'n') := by
  rw [based, mul_assoc, mul_assoc, mem_only_mul]
  simp only [mem_oneOf_mul (l := _ * _), Language.mem_mul, mem_oneOf_star]
  constructor
  · rintro ⟨_, rfl, x, _, rfl, hx, ds, hds, n, hn, rfl⟩
    exact ⟨x, ds, n, rfl, hx, hds, hn⟩
  · rintro ⟨x, ds, n, rfl, hx, hds, hn⟩
    exact ⟨_, rfl, x, _, rfl, hx, ds, hds, n, hn, rfl⟩

theorem mem_pointed :
    w ∈ pointed ↔ ∃ ds e, w = '.' :: (ds ++ e) ∧ ds ∈ spaced ∧ e ∈ optional power := by
  rw [pointed, mul_assoc, mem_only_mul]
  simp only [Language.mem_mul]
  constructor
  · rintro ⟨_, rfl, ds, hds, e, he, rfl⟩
    exact ⟨ds, e, rfl, hds, he⟩
  · rintro ⟨ds, e, rfl, hds, he⟩
    exact ⟨_, rfl, ds, hds, e, he, rfl⟩

theorem mem_behindPoint : w ∈ behindPoint ↔
    ∃ ds e, w = ds ++ e ∧ (∀ d ∈ ds, isSpacedDigit d = true) ∧ e ∈ optional power := by
  rw [behindPoint, Language.mem_mul]
  simp only [mem_oneOf_star]
  constructor
  · rintro ⟨ds, hds, e, he, rfl⟩
    exact ⟨ds, e, rfl, hds, he⟩
  · rintro ⟨ds, e, rfl, hds, he⟩
    exact ⟨ds, hds, e, he, rfl⟩

/-- The five sorts of literals that are so whatever follows them. -/
theorem mem_settled : w ∈ settled ↔ w ∈ hexadecimal ∨ w ∈ binaryOrOctal ∨
    (∃ whole ∈ spaced, ∃ n ∈ optional (only 'n'), w = whole ++ n) ∨
    (∃ whole ∈ spaced, ∃ e ∈ power, w = whole ++ e) ∨ w ∈ pointed := by
  simp only [settled, Language.mem_add, Language.mem_mul, or_assoc, eq_comm (a := w)]

end

/-! ## Parts of a number -/

section
variable {p : Char → Bool} {c : Char} {w ds cs rest : Text}

theorem longest_append_of_all (h : ∀ d ∈ ds, p d = true) (rest : Text) :
    longest p (ds ++ rest) = (ds ++ (longest p rest).1, (longest p rest).2) := by
  rw [longest, List.takeWhile_append_of_pos h, List.dropWhile_append_of_pos h]
  rfl

theorem longest_cons_of_not (h : p c = false) (cs : Text) :
    longest p (c :: cs) = ([], c :: cs) := by
  simp [longest, h]

theorem digits_append (h : ∀ d ∈ ds, isSpacedDigit d = true) (rest : Text) :
    digits (ds ++ rest) = (ds ++ (digits rest).1, (digits rest).2) := longest_append_of_all h rest

theorem digits_cons_of_not (h : isSpacedDigit c = false) (cs : Text) :
    digits (c :: cs) = ([], c :: cs) := longest_cons_of_not h cs

theorem isSpacedDigit_digits (cs : Text) : ∀ d ∈ (digits cs).1, isSpacedDigit d = true :=
  fun _ hd => List.mem_takeWhile_imp hd

/-- Where a digit comes next, digits are read. -/
theorem digits_mem_spaced (h : startsWithDigit cs = true) : (digits cs).1 ∈ spaced := by
  cases cs with
  | nil => cases h
  | cons c cs =>
    have hc : isSpacedDigit c = true := by simp [isSpacedDigit, show c.isDigit = true from h]
    have hfirst : ∀ d ∈ [c], isSpacedDigit d = true := by simpa using hc
    have hcut : digits (c :: cs) = (c :: (digits cs).1, (digits cs).2) := digits_append hfirst cs
    rw [hcut]
    exact mem_spaced.2 ⟨c, _, rfl, h, isSpacedDigit_digits cs⟩

theorem startsWithDigit_append (h : w ∈ spaced) (rest : Text) :
    startsWithDigit (w ++ rest) = true := by
  obtain ⟨c, more, rfl, hc, -⟩ := mem_spaced.1 h
  exact hc

/-- No part of a number but its digits goes on with one of these. -/
theorem not_isSpacedDigit (h : c ∈ ['n', 'e', 'E', '.', 'x', 'X', 'b', 'B', 'o', 'O']) :
    isSpacedDigit c = false := by
  simp only [List.mem_cons, List.not_mem_nil, or_false] at h
  rcases h with rfl | rfl | rfl | rfl | rfl | rfl | rfl | rfl | rfl | rfl <;> rfl

/-! ### The exponent -/

theorem sign_isSign (cs : Text) : IsSign (sign cs).1 := by
  unfold sign
  split
  · split
    · rename_i h
      simp only [Bool.or_eq_true, beq_iff_eq] at h
      rcases h with rfl | rfl
      · exact .inr (.inl rfl)
      · exact .inr (.inr rfl)
    · exact .inl rfl
  · exact .inl rfl

theorem sign_of_isSign (hw : IsSign w) (hds : ds ∈ spaced) (rest : Text) :
    sign (w ++ (ds ++ rest)) = (w, ds ++ rest) := by
  obtain ⟨c, more, rfl, hc, -⟩ := mem_spaced.1 hds
  have hplus : c ≠ '+' := fun h => by rw [h] at hc; cases hc
  have hminus : c ≠ '-' := fun h => by rw [h] at hc; cases hc
  rcases hw with rfl | rfl | rfl <;> simp [sign, hplus, hminus]

/-- An exponent is read as one, or not at all. -/
theorem exponent_mem (cs : Text) : (exponent cs).1 ∈ optional power := by
  unfold exponent
  split
  · rename_i c cs
    split
    · rename_i h
      simp only [Bool.and_eq_true, Bool.or_eq_true, beq_iff_eq] at h
      obtain ⟨hmark, hdigit⟩ := h
      exact .inr (mem_power.2
        ⟨c, (sign cs).1, (digits (sign cs).2).1, rfl, hmark, sign_isSign cs,
          digits_mem_spaced hdigit⟩)
    · exact .inl rfl
  · exact .inl rfl

/-- **An exponent at hand is read to its end.** -/
theorem prefix_exponent (h : w ∈ power) (rest : Text) : w <+: (exponent (w ++ rest)).1 := by
  obtain ⟨mark, sgn, ds, rfl, hmark, hsgn, hds⟩ := mem_power.1 h
  have hsign := sign_of_isSign hsgn hds rest
  have hread : exponent (mark :: (sgn ++ ds) ++ rest) =
      andThen ([mark], sgn ++ (ds ++ rest)) fun rest => andThen (sign rest) digits := by
    rw [List.cons_append, List.append_assoc, exponent, if_pos]
    rw [hsign, startsWithDigit_append hds]
    simpa using hmark
  rw [hread]
  simp only [andThen, hsign, digits_append (isSpacedDigit_of_mem_spaced hds)]
  exact ⟨(digits rest).1, by simp⟩

/-- Where something else stands there is no exponent. -/
theorem exponent_cons_of_not (h : c ∈ ['n', '.', 'x', 'X', 'b', 'B', 'o', 'O']) (cs : Text) :
    exponent (c :: cs) = ([], c :: cs) := by
  have hc : (c == 'e' || c == 'E') = false := by
    simp only [List.mem_cons, List.not_mem_nil, or_false] at h
    rcases h with rfl | rfl | rfl | rfl | rfl | rfl | rfl | rfl <;> rfl
  simp [exponent, hc]

/-! ### The point and the mark -/

/-- A point is taken with the digits behind it, unless it opens an operator. -/
theorem fraction_point_of_head (h : ∀ c ∈ cs.head?, c ≠ '.' ∧ c ≠ '<') :
    fraction ('.' :: cs) = andThen (['.'], cs) digits := by
  rw [fraction_point, if_neg]
  rintro (hpoint | hless)
  · exact (h '.' hpoint).1 rfl
  · exact (h '<' hless).2 rfl

/-- A point is taken, or nothing is. -/
theorem fraction_cases (cs : Text) : fraction cs = ([], cs) ∨
    ∃ ds, cs = '.' :: ds ∧ (∀ c ∈ ds.head?, c ≠ '.' ∧ c ≠ '<') ∧
      fraction cs = andThen (['.'], ds) digits := by
  cases cs with
  | nil => exact .inl rfl
  | cons c ds =>
    by_cases hc : c = '.'
    · subst hc
      rw [fraction_point]
      split
      · exact .inl rfl
      · rename_i hhead
        refine .inr ⟨ds, rfl, fun c hc => ⟨?_, ?_⟩, rfl⟩
        · rintro rfl
          exact hhead (.inl hc)
        · rintro rfl
          exact hhead (.inr hc)
    · exact .inl (fraction_of_ne hc ds)

theorem bigMark_mem (cs : Text) : (bigMark cs).1 ∈ optional (only 'n') := by
  unfold bigMark
  split
  · exact .inr (mem_only.2 rfl)
  · exact .inl rfl

end

/-! ## What is read is a literal -/

section
variable {cs : Text} {x : Char}

/-- The integer part is read, whatever is read behind it. -/
theorem digits_prefix_decimal (cs : Text) : (digits cs).1 <+: (decimal cs).1 := by
  unfold decimal
  dsimp only
  split
  · exact List.prefix_append _ _
  · rw [List.append_assoc]
    exact List.prefix_append _ _

theorem isLiteral_decimal (h : startsWithDigit cs = true) :
    IsLiteral (decimal cs).1 (decimal cs).2 := by
  have hwhole := digits_mem_spaced h
  unfold decimal
  dsimp only
  rcases fraction_cases (digits cs).2 with hnone | ⟨ds, -, hnext, hpoint⟩
  · rw [hnone]
    split
    · exact .inl (mem_settled.2 (.inr (.inr (.inl ⟨_, hwhole, _, bigMark_mem _, rfl⟩))))
    · rename_i hpower
      simp only [List.isEmpty_nil, Bool.true_and, List.isEmpty_iff] at hpower
      have hmem := (mem_optional.1 (exponent_mem (digits cs).2)).resolve_left hpower
      rw [List.append_nil]
      exact .inl (mem_settled.2 (.inr (.inr (.inr (.inl ⟨_, hwhole, _, hmem, rfl⟩)))))
  · rw [hpoint, if_neg (by simp [andThen])]
    have hbehind := mem_behindPoint.2
      ⟨_, _, rfl, isSpacedDigit_digits ds, exponent_mem (digits ds).2⟩
    refine .inr ⟨_, hwhole, _, hbehind, by simp [andThen], ?_⟩
    have hall : (digits ds).1 ++ (exponent (digits ds).2).1 ++ (exponent (digits ds).2).2 = ds := by
      rw [List.append_assoc, exponent_append]
      exact longest_append _ ds
    simp only [andThen]
    rwa [hall]

theorem scan_hexadecimal (hx : (x == 'x' || x == 'X') = true) (cs : Text) :
    scan ('0' :: x :: cs) =
      andThen (andThen (['0', x], cs) (longest isSpacedHexDigit)) bigMark := by
  rw [scan, if_pos hx]
  rfl

theorem scan_binaryOrOctal (hx : (x == 'b' || x == 'B' || x == 'o' || x == 'O') = true)
    (cs : Text) :
    scan ('0' :: x :: cs) = andThen (andThen (['0', x], cs) (longest isSpacedDigit)) bigMark := by
  have hhex : (x == 'x' || x == 'X') = false := by
    simp only [Bool.or_eq_true, beq_iff_eq] at hx
    rcases hx with ((rfl | rfl) | rfl) | rfl <;> rfl
  rw [scan, hhex, if_neg Bool.false_ne_true, if_pos hx]
  rfl

/-- What starts with a digit is read as one of three sorts of numbers. -/
theorem scan_cases (h : startsWithDigit cs = true) :
    (∃ x ds, cs = '0' :: x :: ds ∧ (x == 'x' || x == 'X') = true) ∨
    (∃ x ds, cs = '0' :: x :: ds ∧ (x == 'b' || x == 'B' || x == 'o' || x == 'O') = true) ∨
    scan cs = decimal cs := by
  unfold scan
  split
  · cases h
  · rename_i x ds
    split
    · rename_i hx
      exact .inl ⟨x, ds, rfl, hx⟩
    · split
      · rename_i hx
        exact .inr (.inl ⟨x, ds, rfl, hx⟩)
      · exact .inr (.inr rfl)
  · exact .inr (.inr rfl)

/-- A number in another base is read as one. -/
theorem andThen_mem_based {mark digit : Char → Bool} (hx : mark x = true) (cs : Text) :
    (andThen (andThen (['0', x], cs) (longest digit)) bigMark).1 ∈ based mark digit :=
  mem_based.2 ⟨x, _, _, rfl, hx, fun _ hd => List.mem_takeWhile_imp hd, bigMark_mem _⟩

/-- **What is read is a literal.** -/
theorem isLiteral_scan
    (h : startsWithDigit cs = true ∨ ∃ ds, cs = '.' :: ds ∧ startsWithDigit ds = true) :
    IsLiteral (scan cs).1 (scan cs).2 := by
  rcases h with h | ⟨ds, rfl, h⟩
  · rcases scan_cases h with ⟨x, ds, rfl, hx⟩ | ⟨x, ds, rfl, hx⟩ | hdecimal
    · rw [scan_hexadecimal hx]
      exact .inl (mem_settled.2 (.inl (andThen_mem_based hx ds)))
    · rw [scan_binaryOrOctal hx]
      exact .inl (mem_settled.2 (.inr (.inl (andThen_mem_based hx ds))))
    · rw [hdecimal]
      exact isLiteral_decimal h
  · have hpointed := mem_pointed.2 ⟨_, _, rfl, digits_mem_spaced h, exponent_mem (digits ds).2⟩
    exact .inl (mem_settled.2 (.inr (.inr (.inr (.inr hpointed)))))

end

/-! ## No literal is longer -/

/-- The text may follow an integer part in a literal where `rest` comes behind it. -/
def IsTail (tail rest : Text) : Prop :=
  tail ∈ optional (only 'n') ∨ tail ∈ power ∨
    ∃ more ∈ behindPoint, tail = '.' :: more ∧ ∀ c ∈ (more ++ rest).head?, c ≠ '.' ∧ c ≠ '<'

section
variable {w whole tail rest ds e : Text} {x : Char}

/-- What follows an integer part is told by its first character. -/
theorem IsTail.head_mem (h : IsTail tail rest) : ∀ c ∈ tail.head?, c ∈ ['n', 'e', 'E', '.'] := by
  rcases h with h | h | ⟨more, -, rfl, -⟩
  · rcases mem_optional.1 h with rfl | h
    · simp
    · rw [mem_only.1 h]
      simp
  · obtain ⟨mark, sgn, ds, rfl, rfl | rfl, -, -⟩ := mem_power.1 h <;> simp
  · simp

/-- Neither a digit nor a point begins an exponent. -/
theorem digits_power (h : e ∈ power) (rest : Text) :
    digits (e ++ rest) = ([], e ++ rest) ∧ fraction (e ++ rest) = ([], e ++ rest) := by
  obtain ⟨mark, sgn, ds, rfl, hmark, -, -⟩ := mem_power.1 h
  have hnot : isSpacedDigit mark = false ∧ mark ≠ '.' := by
    rcases hmark with rfl | rfl <;> decide
  exact ⟨digits_cons_of_not hnot.1 _, fraction_of_ne hnot.2 _⟩

/-- Digits with an exponent behind them are read to their end. -/
theorem prefix_digits_exponent (hds : ∀ d ∈ ds, isSpacedDigit d = true) (he : e ∈ optional power)
    (rest : Text) : ds ++ e <+:
      (digits (ds ++ (e ++ rest))).1 ++ (exponent (digits (ds ++ (e ++ rest))).2).1 := by
  rw [digits_append hds]
  rcases mem_optional.1 he with rfl | he
  · simp
  · rw [(digits_power he rest).1, List.append_nil]
    exact (List.prefix_append_right_inj ds).2 (prefix_exponent he rest)

/-- **A decimal literal at hand is read to its end.** -/
theorem prefix_decimal (hwhole : whole ∈ spaced) (h : IsTail tail rest) :
    whole ++ tail <+: (decimal (whole ++ (tail ++ rest))).1 := by
  have hdigits := digits_append (isSpacedDigit_of_mem_spaced hwhole)
  rcases h with h | h | ⟨more, hmore, rfl, hnext⟩
  · rcases mem_optional.1 h with rfl | h
    · refine List.IsPrefix.trans ?_ (digits_prefix_decimal _)
      rw [hdigits, List.append_nil]
      exact List.prefix_append _ _
    · -- neither a digit nor a point nor an exponent begins with the mark of a big integer
      obtain rfl := mem_only.1 h
      rw [decimal, List.singleton_append, hdigits, digits_cons_of_not (by decide),
        fraction_of_ne (by decide), exponent_cons_of_not (by decide)]
      simp [andThen, bigMark]
  · have hread := prefix_exponent h rest
    have hne : (exponent (tail ++ rest)).1 ≠ [] := by
      obtain ⟨mark, sgn, ds, rfl, -⟩ := mem_power.1 h
      exact List.ne_nil_of_length_pos (Nat.lt_of_lt_of_le (Nat.succ_pos _) hread.length_le)
    rw [decimal, hdigits, (digits_power h rest).1, (digits_power h rest).2]
    simp only [List.append_nil]
    rw [if_neg (by simpa using hne)]
    exact (List.prefix_append_right_inj whole).2 hread
  · obtain ⟨ds, e, rfl, hds, he⟩ := mem_behindPoint.1 hmore
    have hread := prefix_digits_exponent hds he rest
    rw [List.cons_append, decimal, hdigits, digits_cons_of_not (by decide),
      fraction_point_of_head hnext]
    simp only [andThen, List.append_nil, List.append_assoc]
    rw [if_neg (by simp)]
    exact (List.prefix_append_right_inj whole).2 (List.cons_prefix_cons.2 ⟨rfl, hread⟩)

/-- In front of the mark of another base there is one digit, and nothing that could follow it. -/
theorem eq_zero_of_mark (hwhole : whole ∈ spaced) (htail : IsTail tail rest)
    (hx : x ∈ ['x', 'X', 'b', 'B', 'o', 'O']) (h : whole ++ (tail ++ rest) = '0' :: x :: ds) :
    whole ++ tail = ['0'] := by
  obtain ⟨c, more, rfl, -, hmore⟩ := mem_spaced.1 hwhole
  obtain ⟨rfl, hbehind⟩ := List.cons_eq_cons.1 h
  cases more with
  | cons d more =>
    obtain ⟨rfl, -⟩ := List.cons_eq_cons.1 hbehind
    have hnot := not_isSpacedDigit (List.mem_append_right ['n', 'e', 'E', '.'] hx)
    rw [hmore d List.mem_cons_self] at hnot
    cases hnot
  | nil =>
    cases tail with
    | nil => rfl
    | cons d more =>
      obtain ⟨rfl, -⟩ := List.cons_eq_cons.1 hbehind
      have hdisjoint : ['n', 'e', 'E', '.'].Disjoint ['x', 'X', 'b', 'B', 'o', 'O'] := by
        simp [List.disjoint_left]
      exact absurd hx (hdisjoint (htail.head_mem d rfl))

/-- What has an integer part is read to its end. -/
theorem prefix_scan_of_tail (hwhole : whole ∈ spaced) (htail : IsTail tail rest) :
    whole ++ tail <+: (scan (whole ++ tail ++ rest)).1 := by
  rw [List.append_assoc]
  have hzero {x : Char} {ds : Text} (hx : x ∈ ['x', 'X', 'b', 'B', 'o', 'O'])
      (h : whole ++ (tail ++ rest) = '0' :: x :: ds) : whole ++ tail = ['0'] :=
    eq_zero_of_mark hwhole htail hx h
  rcases scan_cases (startsWithDigit_append hwhole (tail ++ rest)) with ⟨x, ds, hcs, hx⟩ |
    ⟨x, ds, hcs, hx⟩ |
    hdecimal
  · rw [hzero (by simp at hx ⊢; tauto) hcs, hcs, scan_hexadecimal hx]
    simp [andThen]
  · rw [hzero (by simp at hx ⊢; tauto) hcs, hcs, scan_binaryOrOctal hx]
    simp [andThen]
  · rw [hdecimal]
    exact prefix_decimal hwhole htail

/-- A number in another base is read to its end. -/
theorem prefix_based {digit : Char → Bool} (hn : digit 'n' = false) (hds : ∀ d ∈ ds, digit d = true)
    (he : e ∈ optional (only 'n')) (rest : Text) : '0' :: x :: (ds ++ e) <+:
      (andThen (andThen (['0', x], ds ++ e ++ rest) (longest digit)) bigMark).1 := by
  rw [List.append_assoc]
  simp only [andThen, longest_append_of_all hds]
  rcases mem_optional.1 he with rfl | he
  · simp
  · obtain rfl := mem_only.1 he
    rw [List.singleton_append, longest_cons_of_not hn]
    simp [bigMark]

/-- **Every literal that the text opens with is part of what is read.** -/
theorem prefix_scan (h : IsLiteral w rest) : w <+: (scan (w ++ rest)).1 := by
  rcases h with h | ⟨whole, hwhole, more, hmore, rfl, hnext⟩
  · rcases mem_settled.1 h with h | h | ⟨whole, hwhole, n, hn, rfl⟩ |
      ⟨whole, hwhole, e, he, rfl⟩ | h
    · obtain ⟨x, ds, e, rfl, hx, hds, he⟩ := mem_based.1 h
      rw [List.cons_append, List.cons_append, scan_hexadecimal hx]
      exact prefix_based (by decide) hds he rest
    · obtain ⟨x, ds, e, rfl, hx, hds, he⟩ := mem_based.1 h
      rw [List.cons_append, List.cons_append, scan_binaryOrOctal hx]
      exact prefix_based (by decide) hds he rest
    · exact prefix_scan_of_tail hwhole (.inl hn)
    · exact prefix_scan_of_tail hwhole (.inr (.inl he))
    · obtain ⟨ds, e, rfl, hds, he⟩ := mem_pointed.1 h
      rw [List.cons_append, List.append_assoc]
      exact List.cons_prefix_cons.2
        ⟨rfl, prefix_digits_exponent (isSpacedDigit_of_mem_spaced hds) he rest⟩
  · exact prefix_scan_of_tail hwhole (.inr (.inr ⟨more, hmore, rfl, hnext⟩))

end

end ActionScript.Number

namespace ActionScript

/-- A number is read where one starts, in each of the modes of code. -/
theorem Code.lexeme_of_startsNumber [Alphabet] (mode : Mode) {c : Char} {cs : Text}
    (h : c.isDigit = true ∨ c = '.' ∧ Number.startsWithDigit cs = true) :
    lexeme mode (c :: cs) = Number.lexeme (c :: cs) := by
  rw [lexeme, if_pos]
  simpa using h

/-- **Numbers are read as the longest literal that fits.**  If, behind the trivia at a place in
code, the text goes on with a digit, or with a point and a digit, then a number is read: a literal
of the grammar, and no literal that the text opens with there is longer. -/
theorem Place.next_number_longest [Alphabet] (place : Place) {mode : Mode}
    (hmode : mode.isCode = true) {c : Char}
    {cs : Text} (hrest : (mode.leading place.rest).rest = c :: cs)
    (hstart : c.isDigit = true ∨ c = '.' ∧ Number.startsWithDigit cs = true) :
    (place.next mode).1.kind = .number ∧ ∃ rest, c :: cs = (place.next mode).1.text ++ rest ∧
      Number.IsLiteral (place.next mode).1.text rest ∧
      ∀ w more, c :: cs = w ++ more → Number.IsLiteral w more →
        w.length ≤ (place.next mode).1.text.length := by
  have hread : Lexeme.read mode (mode.leading place.rest).rest = Number.lexeme (c :: cs) := by
    rw [hrest, ← Code.lexeme_of_startsNumber mode hstart]
    cases mode <;> first | rfl | cases hmode
  have hkind : (place.next mode).1.kind = .number := congrArg Lexeme.kind hread
  have htext : (place.next mode).1.text = (Number.scan (c :: cs)).1 := congrArg Lexeme.text hread
  have hstarts : Number.startsWithDigit (c :: cs) = true ∨
      ∃ ds, c :: cs = '.' :: ds ∧ Number.startsWithDigit ds = true :=
    hstart.imp_right fun ⟨hc, hcs⟩ => ⟨cs, by rw [hc], hcs⟩
  refine ⟨hkind, (Number.scan (c :: cs)).2, ?_, ?_, fun w more hw hliteral => ?_⟩
  · rw [htext, Number.scan_append]
  · rw [htext]
    exact Number.isLiteral_scan hstarts
  · rw [htext, hw]
    exact (Number.prefix_scan hliteral).length_le

/-- Before an operand and behind a blank: the exponent is taken, the second point is not. -/
theorem Place.next_number_longest_exponent :
    ((Place.start " 1_0.e+5.x".toList).next .exprStart).1.text = "1_0.e+5".toList ∧
      ∀ w more, "1_0.e+5.x".toList = w ++ more → Number.IsLiteral w more → w.length ≤ 7 :=
  ⟨by decide, (@Place.next_number_longest _ (Place.start " 1_0.e+5.x".toList) .exprStart rfl '1'
    "_0.e+5.x".toList (by decide) (.inl (by decide))).2.elim fun _ h => h.2.2⟩

end ActionScript
