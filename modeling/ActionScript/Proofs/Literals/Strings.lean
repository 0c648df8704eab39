import Mathlib.Data.List.Chain
import ActionScript.Proofs.Printing.Reading
import ActionScript.Proofs.Literals.Units
import ActionScript.View.Schema

/-!
# What string literals stand for

A string literal that is well written, a row of plain characters and escapes between two quotes, is
one token, and it stands for what its units stand for, one after the other.

* `Written`, `Written.text`, `Written.denoted`: the units of such a literal.
* `Written.Apart`: a short octal number is not followed by a digit.
* `body_written`, `decode_written`: the two readers go along the units.
* `literal_denotes`: **a literal stands for its units**.
-/

set_option autoImplicit false

namespace ActionScript.Quotation

/-- A unit of a literal between quotes of a sort. -/
inductive Written (quote : Char) where
  /-- A character that stands for itself. -/
  | plain (c : Char) (h : c ≠ quote ∧ c ≠ '\\' ∧ isLineBreak c = false)
  /-- A backslash with what belongs to it. -/
  | escape (e : Escape)

namespace Written

variable {quote : Char}

/-- How a unit is written. -/
def text : Written quote → Text
  | plain c _ => [c]
  | escape e => '\\' :: e.tail

/-- What a unit stands for. -/
def denoted : Written quote → Text
  | plain c _ => [c]
  | escape e => e.denoted

/-- What follows does not go on with the unit. -/
def Ends (cs : Text) : Written quote → Prop
  | plain _ _ => True
  | escape e => e.Ends cs

/-- A unit may follow: behind an octal number of less than three digits none that begins with such a
digit. -/
def Apart (u v : Written quote) : Prop :=
  match u with
  | escape (.octal ds _) => ds.length < 3 → ∀ c ∈ v.text.head?, isOctalDigit c = false
  | _ => True

theorem text_ne_nil (u : Written quote) : u.text ≠ [] := by
  cases u <;> simp [text]

/-- No unit begins with a line feed. -/
theorem head?_text (u : Written quote) : u.text.head? ≠ some '\n' := by
  cases u with
  | plain c h =>
    rintro hc
    obtain rfl : c = '\n' := by simpa [text] using hc
    exact absurd h.2.2 (by decide)
  | escape e => simp [text]

theorem Apart.ends {u v : Written quote} (h : u.Apart v) (cs : Text) : u.Ends (v.text ++ cs) := by
  have hhead : (v.text ++ cs).head? = v.text.head? := List.head?_append_of_ne_nil _ v.text_ne_nil
  cases u with
  | plain c hc => trivial
  | escape e =>
    cases e with
    | octal ds hds =>
      rw [Ends, Escape.Ends, hhead]
      exact h
    | newline text htext =>
      rw [Ends, Escape.Ends, hhead]
      exact fun _ => v.head?_text
    | _ => trivial

/-- A closing quote ends every unit. -/
theorem ends_quote (hquote : quote = '"' ∨ quote = '\'') (u : Written quote) (cs : Text) :
    u.Ends (quote :: cs) := by
  have hoctal : isOctalDigit quote = false ∧ quote ≠ '\n' := by
    rcases hquote with rfl | rfl <;> decide
  cases u with
  | plain c hc => trivial
  | escape e =>
    cases e with
    | octal ds hds => exact fun _ c hc => Option.some.inj hc ▸ hoctal.1
    | newline text htext => exact fun _ hc => hoctal.2 (Option.some.inj hc)
    | _ => trivial

/-- The end of the text ends every unit. -/
theorem ends_nil (u : Written quote) : u.Ends [] := by
  cases u with
  | plain c hc => trivial
  | escape e => cases e <;> simp [Ends, Escape.Ends]

theorem ends_of_isChain {u : Written quote} {us : List (Written quote)}
    (h : (u :: us).IsChain Apart)
    {cs : Text} (hcs : u.Ends cs) : u.Ends (us.flatMap text ++ cs) := by
  cases us with
  | nil => exact hcs
  | cons v us =>
    rw [List.flatMap_cons, List.append_assoc]
    exact (List.isChain_cons_cons.1 h).1.ends _

end Written

/-! ## Reading along the units -/

variable {quote : Char}

/-- **The reader of tokens takes the units** up to the quote, and finds no fault. -/
theorem body_written (hquote : quote = '"' ∨ quote = '\'') {us : List (Written quote)}
    (h : us.IsChain Written.Apart) (cs : Text) {limit : Nat} (hlimit : us.length < limit) :
    body quote limit (us.flatMap Written.text ++ quote :: cs) =
      ⟨us.map fun u => ⟨u.text, true⟩, cs, true⟩ := by
  induction us generalizing limit with
  | nil =>
    obtain ⟨limit, rfl⟩ := Nat.exists_eq_succ_of_ne_zero (Nat.ne_of_gt hlimit)
    simp [body]
  | cons u us ih =>
    obtain ⟨limit, rfl⟩ := Nat.exists_eq_succ_of_ne_zero (Nat.ne_of_gt (Nat.zero_lt_of_lt hlimit))
    have hmore := ih h.tail (Nat.lt_of_succ_lt_succ hlimit)
    have hends := Written.ends_of_isChain h (u.ends_quote hquote cs)
    rw [List.flatMap_cons, List.append_assoc]
    cases u with
    | plain c hc =>
      rw [Written.text, List.singleton_append, body_plain hc.1 hc.2.2 hc.2.1, hmore]
      rfl
    | escape e =>
      have hslash : '\\' ≠ quote := by rcases hquote with rfl | rfl <;> decide
      rw [Written.text, List.cons_append, body_escape hslash, escape_tail e hends, hmore]
      rfl

/-- **The reader of values takes the same units**, each for what it stands for. -/
theorem decode_written {us : List (Written quote)} (h : us.IsChain Written.Apart) {limit : Nat}
    (hlimit : us.length ≤ limit) :
    Literal.decode limit (us.flatMap Written.text) = us.flatMap Written.denoted := by
  induction us generalizing limit with
  | nil => cases limit <;> rfl
  | cons u us ih =>
    obtain ⟨limit, rfl⟩ :=
      Nat.exists_eq_succ_of_ne_zero (Nat.ne_of_gt (Nat.lt_of_lt_of_le (Nat.succ_pos _) hlimit))
    have hmore := ih h.tail (Nat.le_of_succ_le_succ hlimit)
    have hends := Written.ends_of_isChain h u.ends_nil
    rw [List.append_nil] at hends
    rw [List.flatMap_cons, List.flatMap_cons]
    cases u with
    | plain c hc => simp [Written.text, Written.denoted, Literal.decode, hc, hmore]
    | escape e => simp [Written.text, Written.denoted, Literal.decode, view_tail e hends, hmore]

theorem length_le_flatMap (us : List (Written quote)) :
    us.length ≤ (us.flatMap Written.text).length := by
  induction us with
  | nil => exact Nat.le_refl 0
  | cons u us ih =>
    have := List.length_pos_of_ne_nil u.text_ne_nil
    rw [List.flatMap_cons, List.length_append, List.length_cons]
    omega

/-- A literal, as it is written. -/
def literal (quote : Char) (us : List (Written quote)) : Text :=
  quote :: us.flatMap Written.text ++ [quote]

/-- Every unit of a literal is valid, so none is a flaw. -/
theorem firstFlaw_written (us : List (Written quote)) (offset : Nat) :
    firstFlaw offset (us.map fun u => ⟨u.text, true⟩) = none := by
  induction us generalizing offset with
  | nil => rfl
  | cons u us ih => exact ih _

theorem lexeme_written (hquote : quote = '"' ∨ quote = '\'') {us : List (Written quote)}
    (h : us.IsChain Written.Apart) :
    lexeme quote (us.flatMap Written.text ++ [quote]) = ⟨.string, literal quote us, [], none⟩ := by
  have hlimit : us.length < (us.flatMap Written.text ++ [quote]).length + 1 := by
    rw [List.length_append]
    exact Nat.lt_succ_of_le (Nat.le_trans (length_le_flatMap us) (Nat.le_add_right _ _))
  have hpieces :
      (us.map fun u => (⟨u.text, true⟩ : Piece)).flatMap Piece.text = us.flatMap Written.text :=
    List.flatMap_map ..
  rw [lexeme, body_written hquote h [] hlimit]
  simp [firstFlaw_written, hpieces, literal]

/-- **A literal is read as one token**, from quote to quote, and no flaw is found in it. -/
theorem next_literal [Alphabet] (hquote : quote = '"' ∨ quote = '\'') {us : List (Written quote)}
    (h : us.IsChain Written.Apart) :
    (Place.start (literal quote us)).next .exprStart =
      (⟨.string, 0, [], literal quote us, [], none⟩, (Place.start (literal quote us)).finish) := by
  have hsolid : (literal quote us).Solid := by
    rcases hquote with rfl | rfl <;> exact Trivia.solid_cons (by decide) (by decide) (by decide) _
  have hlexeme :
      Code.lexeme .exprStart (literal quote us) = ⟨.string, literal quote us, [], none⟩ := by
    rw [← lexeme_written hquote h]
    rcases hquote with rfl | rfl <;> rfl
  have hreads : Mode.Reads .exprStart (literal quote us) .string (literal quote us) [] [] :=
    Mode.reads_of_lexeme rfl (by decide) hsolid hlexeme rfl
  obtain ⟨htoken, hrest⟩ := hreads (Place.start (literal quote us)) rfl
  have hoffset := (Place.start (literal quote us)).next_offset .exprStart
  have hsource := (Place.start (literal quote us)).next_append .exprStart
  rw [hrest, List.append_nil] at hsource
  rw [hsource] at hoffset
  refine Prod.ext htoken ?_
  rw [Place.finish, ← hrest]
  exact congrArg (Place.mk · _) hoffset

theorem stringValue_written {us : List (Written quote)} (h : us.IsChain Written.Apart) :
    Literal.stringValue (literal quote us) = us.flatMap Written.denoted := by
  rw [Literal.stringValue, literal, List.cons_append, List.drop_one, List.tail_cons,
    List.dropLast_concat]
  exact decode_written h (length_le_flatMap us)

/-- **A literal stands for its units.**  In front of an operand it is one string token, from quote
to quote and without a flaw, with nothing behind it; and a node that has it as its text denotes what
the units do, one after the other. -/
theorem literal_denotes [Alphabet] (hquote : quote = '"' ∨ quote = '\'') (us : List (Written quote))
    (h : us.IsChain Written.Apart) :
    (Place.start (literal quote us)).next .exprStart =
        (⟨.string, 0, [], literal quote us, [], none⟩, (Place.start (literal quote us)).finish) ∧
      Literal.stringValue (literal quote us) = us.flatMap Written.denoted ∧
      ∀ (tree : Tree) (n : Tree.Node), tree.textOf n = literal quote us →
        Question.denoted.ask tree n = .text (us.flatMap Written.denoted) := by
  refine ⟨next_literal hquote h, stringValue_written h, fun tree n htext => ?_⟩
  rw [Question.ask, htext, stringValue_written h]

/-- An octal number of two digits, and an escape that is a digit behind it. -/
theorem literal_denotes_octal :
    Literal.stringValue "'\\12\\x41a\\n'".toList = ['\n', 'A', 'a', '\n'] :=
  (literal_denotes (.inr rfl)
    ([.escape (.octal ['1', '2'] ⟨by simp, by simp, by simp [isOctalDigit]⟩),
      .escape (.hex ['4', '1'] ⟨rfl, by simp [isHexDigit, Char.isDigit]⟩), .plain 'a' (by decide),
      .escape (.single 'n' (by decide))] : List (Written '\''))
    (by simp [Written.Apart, Written.text, show isOctalDigit '\\' = false by decide])).2.1

end ActionScript.Quotation
