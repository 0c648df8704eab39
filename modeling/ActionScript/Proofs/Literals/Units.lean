import Mathlib.Data.List.Basic
import Mathlib.Data.Nat.Digits.Defs
import ActionScript.Proofs.Spacing.Scanners
import ActionScript.View.Literal

/-!
# The units of a string literal

Between its quotes a string literal is a row of units: characters that stand for themselves, and
escapes.  An escape is a backslash in front of a single character, of an octal number, of a
hexadecimal number with `x` or `u` before it, or of a line break.

* `Escape`, `Escape.tail`, `Escape.denoted`: the escapes, how they are written, and what they stand
  for.
* `Escape.Ends`: what stands behind an escape does not belong to it.
* `Escape.lexer_reads`, `Escape.view_reads`: the reader of tokens and the reader of their values cut
  the same escape from the head of a text, and the latter finds what the escape stands for.
-/

set_option autoImplicit false

namespace ActionScript.Quotation

/-! ## Digits -/

/-- The digits up to base sixteen, in lower case. -/
def digits : Text :=
  ['0', '1', '2', '3', '4', '5', '6', '7', '8', '9', 'a', 'b', 'c', 'd', 'e', 'f']

/-- The value of a digit of either case. -/
def digit (c : Char) : Nat := digits.idxOf c.toLower

/-- The number that a row of digits writes, the last digit counting one. -/
def number (base : Nat) (ds : Text) : Nat := Nat.ofDigits base (ds.reverse.map digit)

/-- The character that a number names, if it is a scalar value. -/
def scalar (n : Nat) : Text := if n.isValidChar then [Char.ofNat n] else []

theorem toNat_lt_of_isHexDigit {c : Char} (h : isHexDigit c = true) : c.toNat < 128 := by
  simp only [isHexDigit, Char.isDigit, Bool.or_eq_true, Bool.and_eq_true, decide_eq_true_eq,
    Char.le_def, UInt32.le_iff_toNat_le, ge_iff_le] at h
  simp only [Char.toNat]
  rcases h with (⟨-, h⟩ | ⟨-, h⟩) | ⟨-, h⟩
  all_goals exact Nat.lt_of_le_of_lt h (by decide)

theorem digitValue_eq_digit {c : Char} (h : isHexDigit c = true) :
    Literal.digitValue c = digit c ∧ digit c < 16 := by
  have hall : ∀ n < 128, isHexDigit (Char.ofNat n) = true →
      Literal.digitValue (Char.ofNat n) = digit (Char.ofNat n) ∧
      digit (Char.ofNat n) < 16 := by decide
  rw [← Char.ofNat_toNat c] at h ⊢
  exact hall c.toNat (toNat_lt_of_isHexDigit (by simpa using h)) h

theorem isHexDigit_of_isOctalDigit {c : Char} (h : isOctalDigit c = true) :
    isHexDigit c = true := by
  simp only [isOctalDigit, Bool.and_eq_true, decide_eq_true_eq] at h
  simp only [isHexDigit, Char.isDigit, Bool.or_eq_true, Bool.and_eq_true, decide_eq_true_eq]
  exact .inl (.inl ⟨h.1, Nat.le_trans h.2 (by decide)⟩)

theorem digitsValue_eq_number (base : Nat) {ds : Text} (h : ∀ d ∈ ds, isHexDigit d = true) :
    Literal.digitsValue base ds = number base ds := by
  rw [Literal.digitsValue, number, Nat.ofDigits_eq_foldr, List.foldr_map, List.foldr_reverse]
  refine List.foldl_ext _ _ _ fun n d hd => ?_
  rw [(digitValue_eq_digit (h d hd)).1, Nat.mul_comm, Nat.add_comm]
  rfl

theorem number_lt (base : Nat) {ds : Text} (hbase : 1 < base) (h : ∀ d ∈ ds, digit d < base) :
    number base ds < base ^ ds.length := by
  have := Nat.ofDigits_lt_base_pow_length (l := ds.reverse.map digit) hbase (by simpa using h)
  simpa [number] using this

theorem character_eq_scalar (n : Nat) : Literal.character n = scalar n := by
  have h : (n < 0xd800 || (0xdfff < n && n < 0x110000)) = true ↔ n.isValidChar := by
    simp [Nat.isValidChar]
  by_cases hn : n.isValidChar
  · rw [Literal.character, if_pos (h.2 hn), scalar, if_pos hn]
  · rw [Literal.character, if_neg (mt h.1 hn), scalar, if_neg hn]

/-! ## Escapes -/

/-- An escape of a string literal. -/
inductive Escape where
  /-- A single character. -/
  | single (c : Char) (h : c ≠ 'x' ∧ c ≠ 'u' ∧ isOctalDigit c = false ∧ c ≠ '\n' ∧ c ≠ '\r')
  /-- One to three octal digits. -/
  | octal (ds : Text) (h : ds ≠ [] ∧ ds.length ≤ 3 ∧ ∀ d ∈ ds, isOctalDigit d = true)
  /-- An `x` and two hexadecimal digits. -/
  | hex (ds : Text) (h : ds.length = 2 ∧ ∀ d ∈ ds, isHexDigit d = true)
  /-- A `u` and four hexadecimal digits. -/
  | unicode (ds : Text) (h : ds.length = 4 ∧ ∀ d ∈ ds, isHexDigit d = true)
  /-- A `u` and one to six hexadecimal digits between braces. -/
  | braced (ds : Text) (h : ds ≠ [] ∧ ds.length ≤ 6 ∧ ∀ d ∈ ds, isHexDigit d = true)
  /-- A line feed, a carriage return, or both. -/
  | newline (text : Text) (h : text = ['\n'] ∨ text = ['\r'] ∨ text = ['\r', '\n'])

/-- The characters that stand for a control character behind a backslash. -/
def controls : List (Char × Char) :=
  [('n', '\x0a'), ('r', '\x0d'), ('t', '\x09'), ('b', '\x08'), ('f', '\x0c'), ('v', '\x0b')]

namespace Escape

/-- What is written behind the backslash. -/
def tail : Escape → Text
  | single c _ => [c]
  | octal ds _ => ds
  | hex ds _ => 'x' :: ds
  | unicode ds _ => 'u' :: ds
  | braced ds _ => ['u', '{'] ++ ds ++ ['}']
  | newline text _ => text

/-- What an escape stands for: a number for the character it names, the end of a line for nothing,
and a single character for itself or a control character. -/
def denoted : Escape → Text
  | single c _ => [(controls.lookup c).getD c]
  | octal ds _ => scalar (number 8 ds)
  | hex ds _ | unicode ds _ | braced ds _ => scalar (number 16 ds)
  | newline _ _ => []

/-- What follows does not go on with the escape: a short octal number with a digit, or a carriage
return with a line feed. -/
def Ends (cs : Text) : Escape → Prop
  | octal ds _ => ds.length < 3 → ∀ c ∈ cs.head?, isOctalDigit c = false
  | newline text _ => text = ['\r'] → cs.head? ≠ some '\n'
  | _ => True

end Escape

theorem atMost_append {count : Nat} {p : Char → Bool} {ds cs : Text} (hds : ∀ d ∈ ds, p d = true)
    (hlength : ds.length ≤ count) (hcs : ds.length < count → ∀ c ∈ cs.head?, p c = false) :
    atMost count p (ds ++ cs) = ds := by
  rw [atMost, List.take_append, List.take_of_length_le hlength, List.takeWhile_append_of_pos hds]
  cases cs with
  | nil => simp
  | cons c cs =>
    by_cases hlt : ds.length < count
    · obtain ⟨n, hn⟩ := Nat.exists_eq_add_of_lt hlt
      have hc : p c = false := hcs hlt c rfl
      rw [hn, Nat.add_assoc, Nat.add_sub_cancel_left, List.take_succ_cons,
        List.takeWhile_cons_of_neg (by simp [hc]), List.append_nil]
    · rw [Nat.sub_eq_zero_of_le (Nat.not_lt.1 hlt), List.take_zero, List.takeWhile_nil,
        List.append_nil]

theorem takeWhile_append_cons {p : Char → Bool} {ds : Text} {c : Char} (hds : ∀ d ∈ ds, p d = true)
    (hc : p c = false) (cs : Text) :
    (ds ++ c :: cs).takeWhile p = ds ∧ (ds ++ c :: cs).dropWhile p = c :: cs := by
  rw [List.takeWhile_append_of_pos hds, List.dropWhile_append_of_pos hds]
  simp [hc]

theorem ne_of_isHexDigit {c d : Char} (hc : isHexDigit c = true)
    (hd : isHexDigit d = false) : c ≠ d := by
  rintro rfl
  rw [hc] at hd
  cases hd

/-- **The reader of tokens takes an escape** that ends in front of what follows. -/
theorem escape_tail (e : Escape) {cs : Text} (hends : e.Ends cs) :
    escape (e.tail ++ cs) = (⟨'\\' :: e.tail, true⟩, cs) := by
  cases e with
  | single c h =>
    obtain ⟨hx, hu, hoctal, -, hreturn⟩ := h
    rw [Escape.tail, List.singleton_append, escape_cons, if_neg hx, if_neg hu,
      if_neg fun h => hreturn h.1,
      if_neg (by simp [hoctal])]
  | octal ds h =>
    obtain ⟨hne, hlength, hds⟩ := h
    have htake := atMost_append hds hlength hends
    cases ds with
    | nil => exact absurd rfl hne
    | cons d ds =>
      have hd : isOctalDigit d = true := hds d (by simp)
      have hdigit (c : Char) (hc : isHexDigit c = false) : d ≠ c :=
        ne_of_isHexDigit (isHexDigit_of_isOctalDigit hd) hc
      rw [List.cons_append] at htake
      rw [Escape.tail, List.cons_append, escape_cons, if_neg (hdigit 'x' (by decide)),
        if_neg (hdigit 'u' (by decide)), if_neg fun h => hdigit '\r' (by decide) h.1,
        if_pos hd, htake]
      exact congrArg _ (List.drop_left' rfl)
  | hex ds h =>
    change hexEscape ['\\', 'x'] 2 (ds ++ cs) = _
    rw [hexEscape, atMost_append h.2 h.1.le (fun hlt => absurd h.1 hlt.ne), List.drop_left]
    simp [h.1, Escape.tail]
  | unicode ds h =>
    obtain ⟨hlength, hds⟩ := h
    have hbrace : (ds ++ cs).head? ≠ some '{' := by
      cases ds with
      | nil => cases hlength
      | cons d ds =>
        exact fun hhead => ne_of_isHexDigit (hds d (by simp)) (by decide) (Option.some.inj hhead)
    rw [Escape.tail, List.cons_append, escape_cons, if_neg (by decide), if_pos rfl,
      if_neg hbrace, hexEscape, atMost_append hds hlength.le (fun hlt => absurd hlength hlt.ne),
      List.drop_left]
    simp [hlength]
  | braced ds h =>
    obtain ⟨hne, hlength, hds⟩ := h
    have hread : escape (['u', '{'] ++ ds ++ ['}'] ++ cs) = bracedEscape (ds ++ '}' :: cs) := by
      simp [escape]
    obtain ⟨htake, hdrop⟩ := takeWhile_append_cons hds (c := '}') (by decide) cs
    have hpos : 1 ≤ ds.length := List.length_pos_of_ne_nil hne
    rw [Escape.tail, hread, bracedEscape, htake, hdrop]
    simp [hpos, hlength]
  | newline text h =>
    rcases h with rfl | rfl | rfl
    · rfl
    · rw [Escape.tail, List.singleton_append, escape_cons, if_neg (by decide), if_neg (by decide),
        if_neg fun h => hends rfl h.2, if_neg (by decide)]
    · rfl

/-! ## What escapes stand for -/

theorem size_of_isHexDigit {ds : Text} (h : ∀ d ∈ ds, isHexDigit d = true) :
    Text.size ds = ds.length := by
  induction ds with
  | nil => rfl
  | cons d ds ih =>
    have hd : d.utf8Size = 1 := by
      have hlt : d.val.toNat < 128 := toNat_lt_of_isHexDigit (h d (by simp))
      rw [Char.utf8Size_eq_one_iff, UInt32.le_iff_toNat_le]
      exact Nat.le_of_lt_succ hlt
    rw [Text.size_cons, hd, ih fun c hc => h c (by simp [hc]), List.length_cons, Nat.add_comm]

/-- **A row of at most eight hexadecimal digits is a number.** -/
theorem hexNumber?_eq {ds : Text} (hne : ds ≠ []) (hds : ∀ d ∈ ds, isHexDigit d = true)
    (hlength : ds.length ≤ 8) : Literal.hexNumber? ds = some (number 16 ds) := by
  have hlt : number 16 ds < 0x100000000 :=
    Nat.lt_of_lt_of_le (number_lt 16 (by decide) fun d hd => (digitValue_eq_digit (hds d hd)).2)
      (Nat.pow_le_pow_right (n := 16) (by decide) hlength)
  have hall : ds.all isHexDigit = true := List.all_eq_true.2 hds
  have hempty : ds.isEmpty = false := by simpa using hne
  unfold Literal.hexNumber?
  split
  · exact absurd (hds '+' (by simp)) (by decide)
  · simp [digitsValue_eq_number 16 hds, hlt, hall, hempty]

theorem simpleEscape_eq (c : Char) : Literal.simpleEscape c = (controls.lookup c).getD c := by
  unfold Literal.simpleEscape
  split
  case h_7 =>
    have hnone : controls.lookup c = none := by simp_all [controls, List.lookup_eq_none_iff]
    rw [hnone, Option.getD_none]
  all_goals rfl

/-- **An escape of a fixed number of digits** is read as the character it names. -/
theorem fixedEscape?_eq {count : Nat} {ds : Text} (hlength : ds.length = count)
    (hds : ∀ d ∈ ds, isHexDigit d = true) (hpos : 0 < count) (hcount : count ≤ 8) (cs : Text) :
    Literal.fixedEscape? count (ds ++ cs) = some (scalar (number 16 ds), cs) := by
  subst hlength
  rw [Literal.fixedEscape?, List.take_left, List.drop_left, size_of_isHexDigit hds,
    hexNumber?_eq (List.ne_nil_of_length_pos hpos) hds hcount]
  simp [character_eq_scalar]

theorem bracedEscape?_eq {ds : Text} (hne : ds ≠ []) (hlength : ds.length ≤ 8)
    (hds : ∀ d ∈ ds, isHexDigit d = true) (cs : Text) :
    Literal.bracedEscape? (ds ++ '}' :: cs) = some (scalar (number 16 ds), cs) := by
  obtain ⟨htake, hdrop⟩ := takeWhile_append_cons (p := (· != '}')) (c := '}')
    (fun d hd => by simpa using ne_of_isHexDigit (hds d hd) (by decide)) (by decide) cs
  rw [Literal.bracedEscape?, htake, hdrop, hexNumber?_eq hne hds hlength]
  simp [character_eq_scalar]

/-- What is read behind a backslash if that is none of `x`, `u` and a line end. -/
theorem view_cons {c : Char} {cs : Text} (hx : c ≠ 'x') (hu : c ≠ 'u') (hfeed : c ≠ '\n')
    (hreturn : c ≠ '\r') : Literal.escape (c :: cs) = if isOctalDigit c then
      (Literal.character (Literal.digitsValue 8 (c :: atMost 2 isOctalDigit cs)),
        (c :: cs).drop (c :: atMost 2 isOctalDigit cs).length)
      else ([Literal.simpleEscape c], cs) := by
  rw [Literal.escape.eq_def]
  split <;> simp_all [atMost]

/-- **The reader of values takes the same escape, and finds what it stands for.** -/
theorem view_tail (e : Escape) {cs : Text} (hends : e.Ends cs) :
    Literal.escape (e.tail ++ cs) = (e.denoted, cs) := by
  cases e with
  | single c h =>
    obtain ⟨hx, hu, hoctal, hfeed, hreturn⟩ := h
    rw [Escape.tail, List.singleton_append, view_cons hx hu hfeed hreturn,
      if_neg (by simp [hoctal]), simpleEscape_eq]
    rfl
  | octal ds h =>
    obtain ⟨hne, hlength, hds⟩ := h
    cases ds with
    | nil => exact absurd rfl hne
    | cons d ds =>
      have hd : isOctalDigit d = true := hds d (by simp)
      have hhex : ∀ c ∈ d :: ds, isHexDigit c = true :=
        fun c hc => isHexDigit_of_isOctalDigit (hds c hc)
      have htake : atMost 2 isOctalDigit (ds ++ cs) = ds :=
        atMost_append (fun c hc => hds c (by simp [hc])) (Nat.le_of_succ_le_succ hlength)
          fun hlt => hends (Nat.succ_lt_succ hlt)
      have hdigit := hhex d (by simp)
      rw [Escape.tail, List.cons_append, view_cons (ne_of_isHexDigit hdigit (by decide))
        (ne_of_isHexDigit hdigit (by decide)) (ne_of_isHexDigit hdigit (by decide))
        (ne_of_isHexDigit hdigit (by decide)), if_pos hd, htake, digitsValue_eq_number 8 hhex,
        character_eq_scalar]
      exact congrArg _ (List.drop_left' rfl)
  | hex ds h =>
    change (Literal.fixedEscape? 2 (ds ++ cs)).getD _ = _
    rw [fixedEscape?_eq h.1 h.2 (by decide) (by decide)]
    rfl
  | unicode ds h =>
    obtain ⟨hlength, hds⟩ := h
    have hread : Literal.escape ('u' :: (ds ++ cs)) =
        (Literal.fixedEscape? 4 (ds ++ cs)).getD (['\\', 'u'], ds ++ cs) := by
      cases ds with
      | nil => cases hlength
      | cons d ds =>
        rw [List.cons_append, Literal.escape]
        rintro ts hts
        exact ne_of_isHexDigit (hds d (by simp)) (by decide) (List.cons.inj hts).1
    change Literal.escape ('u' :: (ds ++ cs)) = _
    rw [hread, fixedEscape?_eq hlength hds (by decide) (by decide)]
    rfl
  | braced ds h =>
    obtain ⟨hne, hlength, hds⟩ := h
    have hread : Literal.escape (['u', '{'] ++ ds ++ ['}'] ++ cs) =
        (Literal.bracedEscape? (ds ++ '}' :: cs)).getD (['\\', 'u'], '{' :: (ds ++ '}' :: cs)) := by
      simp [Literal.escape]
    rw [Escape.tail, hread, bracedEscape?_eq hne (Nat.le_trans hlength (by decide)) hds]
    rfl
  | newline text h =>
    rcases h with rfl | rfl | rfl
    · rfl
    · have hfeed : cs.head? ≠ some '\n' := hends rfl
      cases cs with
      | nil => rfl
      | cons c cs =>
        change Literal.escape ('\r' :: c :: cs) = _
        rw [Literal.escape]
        · rfl
        · rintro ts hts
          exact hfeed (by rw [(List.cons.inj hts).1]; rfl)
    · rfl

end ActionScript.Quotation
