import ActionScript.Token.Basic

/-!
# Numbers

A number is read as far as it goes: `0x1F_n`, `0b01`, `12n`, `1_000.5e-3`, `.5`.  A point behind the
integer part is left alone when `.` or `<` follows it, so that `1..x` and `1.<T>` stay operators.
-/

set_option autoImplicit false

namespace ActionScript.Number

/-- Reads on where the last reading stopped. -/
def andThen (read : Text × Text) (more : Text → Text × Text) : Text × Text :=
  let next := more read.2
  (read.1 ++ next.1, next.2)

/-- The longest run of characters of a class. -/
def longest (p : Char → Bool) (cs : Text) : Text × Text := (cs.takeWhile p, cs.dropWhile p)

/-- Decimal digits with gaps. -/
def digits : Text → Text × Text := longest fun c => c.isDigit || c == '_'

/-- Hexadecimal digits with gaps. -/
def hexDigits : Text → Text × Text := longest fun c => isHexDigit c || c == '_'

/-- Does a decimal digit come next? -/
def startsWithDigit : Text → Bool
  | c :: _ => c.isDigit
  | [] => false

/-- A sign, if there is one. -/
def sign : Text → Text × Text
  | c :: cs => if c == '+' || c == '-' then ([c], cs) else ([], c :: cs)
  | [] => ([], [])

/-- An exponent, if a digit follows its mark and sign; nothing otherwise. -/
def exponent : Text → Text × Text
  | c :: cs =>
    if (c == 'e' || c == 'E') && startsWithDigit (sign cs).2 then
      andThen ([c], cs) fun rest => andThen (sign rest) digits
    else ([], c :: cs)
  | [] => ([], [])

/-- The mark of a big integer, if there is one. -/
def bigMark : Text → Text × Text
  | 'n' :: cs => (['n'], cs)
  | cs => ([], cs)

/-- A point with the digits behind it, unless the point opens an operator. -/
def fraction : Text → Text × Text
  | '.' :: '.' :: cs => ([], '.' :: '.' :: cs)
  | '.' :: '<' :: cs => ([], '.' :: '<' :: cs)
  | '.' :: cs => andThen (['.'], cs) digits
  | cs => ([], cs)

/-- A decimal number that starts with a digit.  Only an integer takes the big mark. -/
def decimal (cs : Text) : Text × Text :=
  let whole := digits cs
  let part := fraction whole.2
  let power := exponent part.2
  if part.1.isEmpty && power.1.isEmpty then andThen whole bigMark
  else (whole.1 ++ part.1 ++ power.1, power.2)

/-- The number at the head of a text that starts with a digit, or with a point and a digit. -/
def scan : Text → Text × Text
  | '.' :: cs => andThen (andThen (['.'], cs) digits) exponent
  | '0' :: c :: cs =>
    if c == 'x' || c == 'X' then andThen (andThen (['0', c], cs) hexDigits) bigMark
    else if c == 'b' || c == 'B' || c == 'o' || c == 'O' then
      andThen (andThen (['0', c], cs) digits) bigMark
    else decimal ('0' :: c :: cs)
  | cs => decimal cs

/-- The number as a lexeme. -/
def lexeme (cs : Text) : Lexeme := ⟨.number, (scan cs).1, (scan cs).2, none⟩

/-! ## Marks and points -/

theorem bigMark_of_ne {c : Char} (h : c ≠ 'n') (cs : Text) : bigMark (c :: cs) = ([], c :: cs) := by
  unfold bigMark
  split
  · rename_i heq
    exact absurd (List.cons.inj heq).1 h
  · rfl

/-- A point is left alone in front of two signs. -/
theorem fraction_point (cs : Text) : fraction ('.' :: cs) =
    if cs.head? = some '.' ∨ cs.head? = some '<' then ([], '.' :: cs)
    else andThen (['.'], cs) digits := by
  cases cs with
  | nil => rfl
  | cons d cs =>
    by_cases hpoint : d = '.'
    · rw [hpoint]
      rfl
    · by_cases hless : d = '<'
      · rw [hless]
        rfl
      · rw [if_neg (by simp [hpoint, hless])]
        unfold fraction
        split <;> simp_all

theorem fraction_of_ne {c : Char} (h : c ≠ '.') (cs : Text) :
    fraction (c :: cs) = ([], c :: cs) := by
  unfold fraction
  split <;> simp_all

/-! ## Nothing is lost -/

theorem andThen_append {read : Text × Text} {more : Text → Text × Text} {cs : Text}
    (hread : read.1 ++ read.2 = cs) (hmore : ∀ t, (more t).1 ++ (more t).2 = t) :
    (andThen read more).1 ++ (andThen read more).2 = cs := by
  simp only [andThen, List.append_assoc, hmore, hread]

theorem longest_append (p : Char → Bool) (cs : Text) :
    (longest p cs).1 ++ (longest p cs).2 = cs := List.takeWhile_append_dropWhile

theorem sign_append (cs : Text) : (sign cs).1 ++ (sign cs).2 = cs := by
  unfold sign
  split
  · split <;> rfl
  · rfl

theorem exponent_append (cs : Text) : (exponent cs).1 ++ (exponent cs).2 = cs := by
  unfold exponent
  split
  · split
    · refine andThen_append rfl fun rest => ?_
      exact andThen_append (sign_append rest) fun t => longest_append _ t
    · rfl
  · rfl

theorem bigMark_append (cs : Text) : (bigMark cs).1 ++ (bigMark cs).2 = cs := by
  unfold bigMark
  split <;> rfl

theorem fraction_append (cs : Text) : (fraction cs).1 ++ (fraction cs).2 = cs := by
  unfold fraction
  split
  · rfl
  · rfl
  · exact andThen_append rfl fun t => longest_append _ t
  · rfl

theorem decimal_append (cs : Text) : (decimal cs).1 ++ (decimal cs).2 = cs := by
  have hwhole := longest_append (fun c => c.isDigit || c == '_') cs
  have hpart := fraction_append (digits cs).2
  have hpower := exponent_append (fraction (digits cs).2).2
  unfold decimal
  dsimp only
  split
  · exact andThen_append hwhole bigMark_append
  · simp only [List.append_assoc, hpower, hpart]
    exact hwhole

/-- **A number and the rest make up the text.** -/
theorem scan_append (cs : Text) : (scan cs).1 ++ (scan cs).2 = cs := by
  unfold scan
  split
  · exact andThen_append (andThen_append rfl fun t => longest_append _ t) exponent_append
  · split
    · exact andThen_append (andThen_append rfl fun t => longest_append _ t) bigMark_append
    · split
      · exact andThen_append (andThen_append rfl fun t => longest_append _ t) bigMark_append
      · exact decimal_append _
  · exact decimal_append _

end ActionScript.Number
