import Mathlib.Data.List.Find
import ActionScript.Proofs.Sessions
import ActionScript.Proofs.Spacing.Squeeze

/-!
# Scanners on squeezed texts

What a scanner cuts from the head of a text it cuts, squeezed, from the head of the squeezed text.
A scanner that stops at blanks cuts the very same; the others pass over blanks without a look at
them.

* `Lexeme.Echoes`: what a token is on the squeezed text.
* `Number.passes_scan`, `Quotation.echoes_body`, `Pattern.map_body_squeeze`: the scanners of code.
* `Lexeme.echoes_read`: **the token at the head of a squeezed text is the squeezed token.**
-/

set_option autoImplicit false

namespace ActionScript

open ActionScript.Text

/-- The second lexeme is the first one squeezed.  A flaw is told by its error; where it lies may
differ. -/
structure Lexeme.Echoes (a b : Lexeme) : Prop where
  kind : b.kind = a.kind
  text : b.text = a.text.squeeze
  rest : b.rest = a.rest.squeeze
  flaw : b.flaw.map Flaw.error = a.flaw.map Flaw.error

namespace Lexeme.Echoes

variable {kind : Kind} {text : Text}

/-- What is left behind the tokens tells the texts, if no run of blanks is torn apart. -/
theorem of_rest {a b : Lexeme} {cs : Text} (ha : a.text ++ a.rest = cs)
    (hb : b.text ++ b.rest = squeeze cs) (hkind : b.kind = a.kind) (hrest : b.rest = squeeze a.rest)
    (hparted : a.text.closesBlank = true → a.rest.opensBlank = false)
    (hflaw : b.flaw.map Flaw.error = a.flaw.map Flaw.error) : a.Echoes b := by
  refine ⟨hkind, eq_squeeze_of_append ?_ hparted, hrest, hflaw⟩
  rw [← hrest, hb, ha]

/-- A token without blanks. -/
theorem solid (h : text.any isBlank = false) (rest : Text) :
    (⟨kind, text, rest, none⟩ : Lexeme).Echoes ⟨kind, text, squeeze rest, none⟩ :=
  ⟨rfl, (squeeze_of_solid h).symm, rfl, rfl⟩

theorem faulty {error : LexError} (h : text.any isBlank = false) (rest : Text) :
    (Lexeme.faulty error kind text rest).Echoes (Lexeme.faulty error kind text (squeeze rest)) :=
  ⟨rfl, (squeeze_of_solid h).symm, rfl, rfl⟩

/-- Both tokens are chosen by one condition. -/
theorem choice {p : Prop} [Decidable p] {a b a' b' : Lexeme} (ha : p → a.Echoes a')
    (hb : ¬p → b.Echoes b') : (if p then a else b).Echoes (if p then a' else b') := by
  split
  · exact ha ‹p›
  · exact hb ‹¬p›

end Lexeme.Echoes

/-! ## Characters -/

theorem isIdentContinue_of_isBlank [Alphabet] {c : Char} (h : isBlank c = true) :
    isIdentContinue c = false :=
  isIdentContinue_eq_false_of_ending (mem_endingCodes_of_isBlank h)

theorem isTagContinue_of_isBlank [Alphabet] {c : Char} (h : isBlank c = true) :
    isTagContinue c = false := by
  have hletter := isLetterOrMark_eq_false_of_ending (mem_endingCodes_of_isBlank h)
  simp only [isTagContinue, hletter, Bool.false_or]
  exact eq_false_of_isBlank (p := fun c => c == '-' || c == '.' || c == ':') (by decide) h

theorem isDigit_of_isBlank {c : Char} (h : isBlank c = true) : c.isDigit = false :=
  eq_false_of_isBlank (by decide) h

theorem isHexDigit_of_isBlank {c : Char} (h : isBlank c = true) : isHexDigit c = false :=
  eq_false_of_isBlank (by decide) h

theorem isOctalDigit_of_isBlank {c : Char} (h : isBlank c = true) : isOctalDigit c = false :=
  eq_false_of_isBlank (by decide) h

theorem isLineBreak_of_isBlank {c : Char} (h : isBlank c = true) : isLineBreak c = false := by
  refine Bool.eq_false_iff.2 fun hbreak => ?_
  rw [isBlank_eq_false_of_isLineBreak hbreak] at h
  cases h

theorem beq_eq_false_of_isBlank {c d : Char} (hc : isBlank c = true) (hd : isBlank d = false) :
    (c == d) = false := beq_false_of_ne (ne_of_isBlank hc hd)

/-- What a class without blanks makes up has none. -/
theorem Text.any_takeWhile_of_stops {p : Char → Bool} (hp : ∀ c, isBlank c = true → p c = false)
    (cs : Text) : (cs.takeWhile p).any isBlank = false := by
  refine List.any_eq_false.2 fun c hc hblank => ?_
  have hpc := List.all_eq_true.1 List.all_takeWhile c hc
  rw [hp c hblank] at hpc
  cases hpc

/-! ## Numbers -/

namespace Number

/-- A scanner cuts the same from the squeezed text. -/
def Passes (f : Text → Text × Text) : Prop := ∀ cs, f (squeeze cs) = ((f cs).1, squeeze (f cs).2)

theorem Passes.andThen {read more : Text → Text × Text} (hread : Passes read)
    (hmore : Passes more) : Passes fun cs => Number.andThen (read cs) more := by
  intro cs
  simp only [Number.andThen, hread cs, hmore (read cs).2]

theorem passes_longest {p : Char → Bool} (hp : ∀ c, isBlank c = true → p c = false) :
    Passes (longest p) := fun cs => by
  rw [longest, longest, takeWhile_squeeze_of_stops hp, dropWhile_squeeze_of_stops hp]

/-- A sign in front, and then more. -/
theorem passes_mark (mark : Text) : Passes fun cs => (mark, cs) := fun _ => rfl

/-- Scanners that cut nothing in front of a blank. -/
theorem Passes.of_cons {f : Text → Text × Text} (hnil : f [] = ([], []))
    (hblank : ∀ c cs, isBlank c = true → f (c :: cs) = ([], c :: cs))
    (hcons : ∀ c cs, isBlank c = false →
      f (c :: squeeze cs) = ((f (c :: cs)).1, squeeze (f (c :: cs)).2)) : Passes f := by
  intro cs
  cases cs with
  | nil => rw [squeeze_nil, hnil, squeeze_nil]
  | cons c cs =>
    cases hc : isBlank c with
    | true => rw [hblank c cs hc, squeeze_cons_of_blank hc, hblank ' ' _ isBlank_space]
    | false => rw [squeeze_cons_of_not hc, hcons c cs hc]

theorem passes_digits : Passes digits :=
  passes_longest fun c hc => by
    rw [isDigit_of_isBlank hc, beq_eq_false_of_isBlank hc (by decide), Bool.or_self]

theorem passes_hexDigits : Passes hexDigits :=
  passes_longest fun c hc => by
    rw [isHexDigit_of_isBlank hc, beq_eq_false_of_isBlank hc (by decide), Bool.or_self]

theorem startsWithDigit_squeeze (cs : Text) :
    startsWithDigit (squeeze cs) = startsWithDigit cs := by
  cases cs with
  | nil => rfl
  | cons c cs =>
    cases hc : isBlank c with
    | true =>
      rw [squeeze_cons_of_blank hc, startsWithDigit, startsWithDigit, isDigit_of_isBlank hc]
      rfl
    | false => rw [squeeze_cons_of_not hc, startsWithDigit, startsWithDigit]

theorem passes_sign : Passes sign := by
  refine .of_cons rfl (fun c cs hc => ?_) fun c cs hc => ?_
  · have hplus : (c == '+') = false := beq_eq_false_of_isBlank hc (by decide)
    have hminus : (c == '-') = false := beq_eq_false_of_isBlank hc (by decide)
    simp [sign, hplus, hminus]
  · rw [sign, sign]
    split
    · rfl
    · rw [squeeze_cons_of_not hc]

theorem passes_exponent : Passes exponent := by
  refine .of_cons rfl (fun c cs hc => ?_) fun c cs hc => ?_
  · have hlower : (c == 'e') = false := beq_eq_false_of_isBlank hc (by decide)
    have hupper : (c == 'E') = false := beq_eq_false_of_isBlank hc (by decide)
    simp [exponent, hlower, hupper]
  · rw [exponent, exponent, passes_sign cs, startsWithDigit_squeeze]
    split
    · exact Passes.andThen (passes_mark [c]) (passes_sign.andThen passes_digits) cs
    · rw [squeeze_cons_of_not hc]

theorem passes_bigMark : Passes bigMark := by
  refine .of_cons rfl (fun c cs hc => ?_) fun c cs hc => ?_
  · exact bigMark_of_ne (ne_of_isBlank hc (by decide)) cs
  · by_cases hn : c = 'n'
    · rw [hn]
      rfl
    · rw [bigMark_of_ne hn, bigMark_of_ne hn, squeeze_cons_of_not hc]

theorem passes_fraction : Passes fraction := by
  refine .of_cons rfl (fun c cs hc => ?_) fun c cs hc => ?_
  · exact fraction_of_ne (ne_of_isBlank hc (by decide)) cs
  · by_cases hpoint : c = '.'
    · subst hpoint
      simp only [fraction_point, head?_squeeze_eq_some (show isBlank '.' = false by decide),
        head?_squeeze_eq_some (show isBlank '<' = false by decide)]
      split
      · rw [squeeze_cons_of_not hc]
      · exact Passes.andThen (passes_mark ['.']) passes_digits cs
    · rw [fraction_of_ne hpoint, fraction_of_ne hpoint, squeeze_cons_of_not hc]

theorem passes_decimal : Passes decimal := by
  intro cs
  simp only [decimal, passes_digits cs, passes_fraction (digits cs).2,
    passes_exponent (fraction (digits cs).2).2]
  split
  · simp only [Number.andThen, passes_bigMark (digits cs).2]
  · rfl

/-- Behind a zero a letter tells the base. -/
theorem scan_zero (c : Char) (cs : Text) : scan ('0' :: c :: cs) =
    if c == 'x' || c == 'X' then andThen (andThen (['0', c], cs) hexDigits) bigMark
    else if c == 'b' || c == 'B' || c == 'o' || c == 'O' then
      andThen (andThen (['0', c], cs) digits) bigMark
    else decimal ('0' :: c :: cs) := by
  rw [scan]

/-- Behind a zero a blank is no letter. -/
theorem scan_zero_blank {c : Char} (hc : isBlank c = true) (cs : Text) :
    scan ('0' :: c :: cs) = decimal ('0' :: c :: cs) := by
  refine scan_zero_of_ne (fun d hd => ne_of_isBlank hc ?_) cs
  simp only [List.mem_cons, List.not_mem_nil, or_false] at hd
  rcases hd with rfl | rfl | rfl | rfl | rfl | rfl <;> decide

/-- A number that begins with a zero. -/
theorem scan_zero_squeeze (cs : Text) : scan ('0' :: squeeze cs) =
    ((scan ('0' :: cs)).1, squeeze (scan ('0' :: cs)).2) := by
  cases cs with
  | nil => rfl
  | cons c cs =>
    have hpasses := passes_decimal ('0' :: c :: cs)
    cases hc : isBlank c with
    | true =>
      rw [squeeze_cons_of_not (by decide), squeeze_cons_of_blank hc] at hpasses
      rw [squeeze_cons_of_blank hc, scan_zero_blank hc, scan_zero_blank isBlank_space, hpasses]
    | false =>
      rw [squeeze_cons_of_not (by decide), squeeze_cons_of_not hc] at hpasses
      rw [squeeze_cons_of_not hc, scan_zero, scan_zero]
      split
      · exact Passes.andThen (Passes.andThen (passes_mark ['0', c]) passes_hexDigits)
          passes_bigMark cs
      split
      · exact Passes.andThen (Passes.andThen (passes_mark ['0', c]) passes_digits) passes_bigMark cs
      · exact hpasses

/-- **A number is the same on the squeezed text.** -/
theorem passes_scan : Passes scan := by
  intro cs
  have hdecimal {c d : Char} {cs ds : Text} (hc : c ≠ '.' ∧ c ≠ '0') (hd : d ≠ '.' ∧ d ≠ '0')
      (hds : squeeze (c :: cs) = d :: ds) :
      scan (squeeze (c :: cs)) = ((scan (c :: cs)).1, squeeze (scan (c :: cs)).2) := by
    have hpasses := passes_decimal (c :: cs)
    rw [scan_of_ne hc.1 hc.2, ← hpasses, hds, scan_of_ne hd.1 hd.2]
  cases cs with
  | nil => rfl
  | cons c cs =>
    cases hc : isBlank c with
    | true =>
      exact hdecimal ⟨ne_of_isBlank hc (by decide), ne_of_isBlank hc (by decide)⟩ (by decide)
        (squeeze_cons_of_blank hc cs)
    | false =>
      by_cases hpoint : c = '.'
      · subst hpoint
        rw [squeeze_cons_of_not hc]
        exact Passes.andThen (Passes.andThen (passes_mark ['.']) passes_digits) passes_exponent cs
      by_cases hzero : c = '0'
      · subst hzero
        rw [squeeze_cons_of_not hc]
        exact scan_zero_squeeze cs
      · exact hdecimal ⟨hpoint, hzero⟩ ⟨hpoint, hzero⟩ (squeeze_cons_of_not hc)

theorem echoes_lexeme (cs : Text) : (lexeme cs).Echoes (lexeme (squeeze cs)) := by
  have hscan := passes_scan cs
  have hsame : (scan cs).1 ++ squeeze (scan cs).2 = squeeze ((scan cs).1 ++ (scan cs).2) := by
    have happend := scan_append (squeeze cs)
    rw [hscan] at happend
    rw [scan_append cs]
    exact happend
  exact ⟨rfl, (congrArg Prod.fst hscan).trans (squeeze_eq_of_append hsame).symm,
    congrArg Prod.snd hscan, rfl⟩

end Number

/-! ## String literals -/

namespace Quotation

/-- The second body is that of the squeezed text.  The pieces are told by whether one is
malformed. -/
structure Body.Echoes (a b : Body) : Prop where
  rest : b.rest = squeeze a.rest
  closed : b.closed = a.closed
  valid : b.pieces.all Piece.valid = a.pieces.all Piece.valid

/-- A piece in front of a body. -/
def Body.cons (piece : Piece) (b : Body) : Body := ⟨piece :: b.pieces, b.rest, b.closed⟩

theorem Body.Echoes.cons {a b : Body} (h : a.Echoes b) {p q : Piece} (hvalid : q.valid = p.valid) :
    (a.cons p).Echoes (b.cons q) := by
  refine ⟨h.rest, h.closed, ?_⟩
  simp only [Body.cons, List.all_cons, hvalid, h.valid]

/-- A plain character makes no difference. -/
theorem Body.Echoes.of_cons_plain {a b : Body} {text : Text} (h : a.Echoes (b.cons ⟨text, true⟩)) :
    a.Echoes b := ⟨h.rest, h.closed, h.valid⟩

section
variable {quote c : Char}

theorem body_quote (limit : Nat) (cs : Text) :
    body quote (limit + 1) (quote :: cs) = ⟨[], cs, true⟩ := by
  simp [body]

theorem body_break (hc : c ≠ quote) (hbreak : isLineBreak c = true) (limit : Nat) (cs : Text) :
    body quote (limit + 1) (c :: cs) = ⟨[], c :: cs, false⟩ := by
  simp [body, hc, hbreak]

theorem body_escape (hquote : '\\' ≠ quote) (limit : Nat) (cs : Text) :
    body quote (limit + 1) ('\\' :: cs) =
      (body quote limit (escape cs).2).cons (escape cs).1 := by
  have hbreak : isLineBreak '\\' = false := by decide
  simp [body, hquote, hbreak, Body.cons]

theorem body_plain (hc : c ≠ quote) (hbreak : isLineBreak c = false) (hescape : c ≠ '\\')
    (limit : Nat) (cs : Text) :
    body quote (limit + 1) (c :: cs) = (body quote limit cs).cons ⟨[c], true⟩ := by
  simp [body, hc, hbreak, hescape, Body.cons]

/-- A blank is plain. -/
theorem body_blank (hquote : isBlank quote = false) (hc : isBlank c = true) (limit : Nat)
    (cs : Text) : body quote (limit + 1) (c :: cs) = (body quote limit cs).cons ⟨[c], true⟩ :=
  body_plain (ne_of_isBlank hc hquote) (isLineBreak_of_isBlank hc)
    (ne_of_isBlank hc (by decide)) limit cs

end

/-! ### Escapes -/

theorem atMost_eq_take (count : Nat) (p : Char → Bool) (cs : Text) :
    atMost count p cs = (cs.takeWhile p).take count := by
  rw [atMost]
  induction cs generalizing count with
  | nil => simp
  | cons c cs ih =>
    cases count with
    | zero => simp
    | succ count =>
      rw [List.take_succ_cons, List.takeWhile_cons, List.takeWhile_cons, ih]
      split <;> simp

/-- Digits are the same on the squeezed text, and so is what stands behind them. -/
theorem atMost_squeeze {p : Char → Bool} (hp : ∀ c, isBlank c = true → p c = false) (count : Nat)
    (cs : Text) : atMost count p (squeeze cs) = atMost count p cs ∧
      (squeeze cs).drop (atMost count p cs).length = squeeze
        (cs.drop (atMost count p cs).length) := by
  have hsolid : (atMost count p cs).any isBlank = false :=
    any_takeWhile_of_stops hp (cs.take count)
  have hmark : (atMost count p cs).isPrefixOf cs = true := List.isPrefixOf_iff_prefix.2
    ((List.takeWhile_prefix p).trans (List.take_prefix count cs))
  refine ⟨?_, drop_squeeze hsolid hmark⟩
  rw [atMost_eq_take, takeWhile_squeeze_of_stops hp, ← atMost_eq_take]

theorem hexEscape_squeeze (lead : Text) (count : Nat) (cs : Text) :
    hexEscape lead count (squeeze cs) =
      ((hexEscape lead count cs).1, squeeze (hexEscape lead count cs).2) := by
  obtain ⟨hdigits, hrest⟩ := atMost_squeeze (fun _ h => isHexDigit_of_isBlank h) count cs
  simp only [hexEscape, hdigits, hrest]

/-- An escape in braces, by the character behind its digits. -/
theorem bracedEscape_eq (cs : Text) : bracedEscape cs =
    if 1 ≤ (cs.takeWhile isHexDigit).length && (cs.takeWhile isHexDigit).length ≤ 6 then
      if (cs.dropWhile isHexDigit).head? = some '}' then
        (⟨['\\', 'u', '{'] ++ cs.takeWhile isHexDigit ++ ['}'], true⟩,
          (cs.dropWhile isHexDigit).tail)
      else (⟨['\\', 'u', '{'] ++ cs.takeWhile isHexDigit, false⟩, cs.dropWhile isHexDigit)
    else (⟨['\\', 'u', '{'] ++ cs.takeWhile isHexDigit, false⟩, cs.dropWhile isHexDigit) := by
  unfold bracedEscape
  dsimp only
  split
  · split
    · rename_i rest hrest
      simp [hrest]
    · rename_i hne
      rw [if_neg]
      intro hhead
      obtain ⟨rest, hrest⟩ := List.head?_eq_some_iff.1 hhead
      exact hne rest hrest
  · rfl

theorem bracedEscape_squeeze (cs : Text) :
    bracedEscape (squeeze cs) = ((bracedEscape cs).1, squeeze (bracedEscape cs).2) := by
  have hstops (c : Char) (h : isBlank c = true) : isHexDigit c = false := isHexDigit_of_isBlank h
  simp only [bracedEscape_eq, takeWhile_squeeze_of_stops hstops, dropWhile_squeeze_of_stops hstops,
    head?_squeeze_eq_some (show isBlank '}' = false by decide)]
  split
  · split
    · rename_i hhead
      rw [tail_squeeze (by decide) hhead]
    · rfl
  · rfl

/-- The escape behind a backslash, by the character that opens it. -/
theorem escape_cons (c : Char) (cs : Text) : escape (c :: cs) =
    if c = 'x' then hexEscape ['\\', 'x'] 2 cs
    else if c = 'u' then
      if cs.head? = some '{' then bracedEscape cs.tail else hexEscape ['\\', 'u'] 4 cs
    else if c = '\r' ∧ cs.head? = some '\n' then (⟨['\\', '\r', '\n'], true⟩, cs.tail)
    else if isOctalDigit c = true then
      (⟨'\\' :: atMost 3 isOctalDigit (c :: cs), true⟩,
        (c :: cs).drop (atMost 3 isOctalDigit (c :: cs)).length)
    else (⟨['\\', c], true⟩, cs) := by
  unfold escape
  split
  · rename_i heq
    cases heq
  · rename_i heq
    cases heq
    rfl
  · rename_i heq
    cases heq
    rfl
  · rename_i cs' hbrace heq
    cases heq
    rw [if_neg (by decide), if_pos rfl, if_neg]
    intro hhead
    obtain ⟨rest, hrest⟩ := List.head?_eq_some_iff.1 hhead
    exact hbrace rest hrest
  · rename_i heq
    cases heq
    rfl
  · rename_i c' cs' hx _ hu hbreak heq
    cases heq
    have hcr : ¬(c = '\r' ∧ cs.head? = some '\n') := by
      rintro ⟨rfl, hhead⟩
      obtain ⟨rest, rfl⟩ := List.head?_eq_some_iff.1 hhead
      exact hbreak rest rfl rfl
    rw [if_neg fun h => hx h, if_neg fun h => hu h, if_neg hcr]

/-- A blank is escaped on its own. -/
theorem escape_blank {c : Char} (hc : isBlank c = true) (cs : Text) :
    escape (c :: cs) = (⟨['\\', c], true⟩, cs) := by
  have hne (d : Char) (hd : isBlank d = false) : c ≠ d := ne_of_isBlank hc hd
  rw [escape_cons, if_neg (hne 'x' (by decide)), if_neg (hne 'u' (by decide)),
    if_neg fun h => hne '\r' (by decide) h.1, if_neg (by simp [isOctalDigit_of_isBlank hc])]

/-- **An escape is the same on the squeezed text**, unless it is one of a blank. -/
theorem escape_squeeze {c : Char} (hc : isBlank c = false) (cs : Text) :
    escape (c :: squeeze cs) = ((escape (c :: cs)).1, squeeze (escape (c :: cs)).2) := by
  obtain ⟨hdigits, hrest⟩ := atMost_squeeze (fun _ h => isOctalDigit_of_isBlank h) 3 (c :: cs)
  rw [squeeze_cons_of_not hc] at hdigits hrest
  simp only [escape_cons, hdigits, hrest,
    head?_squeeze_eq_some (show isBlank '{' = false by decide),
    head?_squeeze_eq_some (show isBlank '\n' = false by decide)]
  split
  · exact hexEscape_squeeze _ _ cs
  · split
    · split
      · rename_i hhead
        rw [tail_squeeze (by decide) hhead]
        exact bracedEscape_squeeze _
      · exact hexEscape_squeeze _ _ cs
    · split
      · rename_i hhead
        rw [tail_squeeze (by decide) hhead.2]
      · split <;> rfl

/-! ### Literals -/

theorem length_escape_le (cs : Text) : (escape cs).2.length ≤ cs.length := by
  have happend := congrArg List.length (escape_append cs)
  have hpos : 0 < (escape cs).1.text.length := List.length_pos_of_ne_nil (escape_text_ne cs)
  rw [List.length_append, List.length_cons] at happend
  omega

/-- The body of a text goes the same way when that is squeezed, whatever the limits, as long as they
suffice. -/
def Settled (quote : Char) (cs : Text) : Prop := ∀ m n, cs.length < m → (squeeze cs).length < n →
  (body quote m cs).Echoes (body quote n (squeeze cs))

section
variable {quote c : Char} {cs : Text}

theorem settled_nil (quote : Char) : Settled quote [] := by
  intro m n hm hn
  obtain ⟨m, rfl⟩ : ∃ k, m = k + 1 := ⟨m - 1, by omega⟩
  obtain ⟨n, rfl⟩ : ∃ k, n = k + 1 := ⟨n - 1, by omega⟩
  exact ⟨rfl, rfl, rfl⟩

/-- One step on either side. -/
theorem Settled.of_succ (h : ∀ m n, cs.length ≤ m → (squeeze cs).length ≤ n →
    (body quote (m + 1) cs).Echoes (body quote (n + 1) (squeeze cs))) : Settled quote cs := by
  intro m n hm hn
  obtain ⟨m, rfl⟩ : ∃ k, m = k + 1 := ⟨m - 1, by omega⟩
  obtain ⟨n, rfl⟩ : ∃ k, n = k + 1 := ⟨n - 1, by omega⟩
  exact h m n (by omega) (by omega)

/-- Behind a blank that is passed a run of further ones makes no difference. -/
theorem Settled.drop (hquote : isBlank quote = false) (h : Settled quote cs) {m n : Nat}
    (hm : cs.length < m) (hn : (squeeze (cs.dropWhile isBlank)).length < n) :
    (body quote m cs).Echoes (body quote n (squeeze (cs.dropWhile isBlank))) := by
  cases cs with
  | nil => exact h m n hm hn
  | cons d ds =>
    cases hd : isBlank d with
    | true =>
      have hsame : squeeze (d :: ds) = ' ' :: squeeze ((d :: ds).dropWhile isBlank) := by
        rw [squeeze_cons_of_blank hd, List.dropWhile_cons_of_pos hd]
      have hecho := h m (n + 1) hm (by rw [hsame]; exact Nat.succ_lt_succ hn)
      rw [hsame, body_blank hquote isBlank_space] at hecho
      exact hecho.of_cons_plain
    | false =>
      rw [List.dropWhile_cons_of_neg (by simp [hd])] at hn ⊢
      exact h m n hm hn

theorem Settled.cons_blank (hquote : isBlank quote = false) (hc : isBlank c = true)
    (h : Settled quote cs) : Settled quote (c :: cs) := by
  refine .of_succ fun m n hm hn => ?_
  rw [squeeze_cons_of_blank hc] at hn ⊢
  rw [body_blank hquote hc, body_blank hquote isBlank_space]
  exact (h.drop hquote hm hn).cons rfl

theorem Settled.cons_plain (hc : isBlank c = false) (hne : c ≠ quote)
    (hbreak : isLineBreak c = false)
    (hescape : c ≠ '\\') (h : Settled quote cs) : Settled quote (c :: cs) := by
  refine .of_succ fun m n hm hn => ?_
  rw [squeeze_cons_of_not hc] at hn ⊢
  rw [body_plain hne hbreak hescape, body_plain hne hbreak hescape]
  exact (h m n hm hn).cons rfl

/-- An escape may be one of a blank. -/
theorem Settled.cons_escape (hquote : isBlank quote = false) (hescape : '\\' ≠ quote)
    (h : ∀ ds : Text, ds.length ≤ cs.length → Settled quote ds) : Settled quote ('\\' :: cs) := by
  refine .of_succ fun m n hm hn => ?_
  rw [squeeze_cons_of_not (by decide)] at hn ⊢
  rw [body_escape hescape, body_escape hescape]
  rw [List.length_cons] at hm hn
  cases cs with
  | nil => exact (h [] (Nat.le_refl _) m n hm hn).cons rfl
  | cons d ds =>
    cases hd : isBlank d with
    | true =>
      rw [squeeze_cons_of_blank hd] at hn ⊢
      rw [escape_blank hd, escape_blank isBlank_space]
      have hds := h ds (Nat.le_succ _)
      exact (hds.drop hquote (Nat.lt_of_succ_lt hm) (Nat.lt_of_succ_lt hn)).cons rfl
    | false =>
      have hle := length_escape_le (d :: ds)
      have hle' := length_escape_le (d :: squeeze ds)
      rw [squeeze_cons_of_not hd] at hn ⊢
      rw [escape_squeeze hd] at hle' ⊢
      exact (h _ hle m n (Nat.lt_of_le_of_lt hle hm) (Nat.lt_of_le_of_lt hle' hn)).cons rfl

end

/-- **The body of a literal goes the same way on the squeezed text.** -/
theorem settled {quote : Char} (hquote : isBlank quote = false) (hescape : '\\' ≠ quote)
    (cs : Text) : Settled quote cs := by
  induction hsize : cs.length using Nat.strong_induction_on generalizing cs with
  | h size ih =>
    subst hsize
    cases cs with
    | nil => exact settled_nil quote
    | cons c cs =>
      have hcs : Settled quote cs := ih cs.length (Nat.lt_succ_self _) cs rfl
      by_cases hc : isBlank c = true
      · exact hcs.cons_blank hquote hc
      have hblank : isBlank c = false := by simpa using hc
      by_cases hquoted : c = quote
      · subst hquoted
        refine .of_succ fun m n _ _ => ?_
        rw [squeeze_cons_of_not hblank, body_quote, body_quote]
        exact ⟨rfl, rfl, rfl⟩
      by_cases hbreak : isLineBreak c = true
      · refine .of_succ fun m n _ _ => ?_
        rw [squeeze_cons_of_not hblank, body_break hquoted hbreak, body_break hquoted hbreak]
        exact ⟨(squeeze_cons_of_not hblank).symm, rfl, rfl⟩
      by_cases hback : c = '\\'
      · subst hback
        exact .cons_escape hquote hescape fun ds hds => ih ds.length (Nat.lt_succ_of_le hds) ds rfl
      · exact hcs.cons_plain hblank hquoted (by simpa using hbreak) hback

/-- A literal that is not closed ends at a line break or with the text. -/
theorem opensBlank_rest (quote : Char) (limit : Nat) {cs : Text} (hlimit : cs.length < limit)
    (hopen : (body quote limit cs).closed = false) :
    (body quote limit cs).rest.opensBlank = false := by
  induction limit generalizing cs with
  | zero => omega
  | succ limit ih =>
    cases cs with
    | nil => rfl
    | cons c cs =>
      rw [List.length_cons] at hlimit
      rw [body] at hopen ⊢
      split
      · rename_i hquote
        rw [if_pos hquote] at hopen
        cases hopen
      · rename_i hquote
        rw [if_neg hquote] at hopen
        split
        · rename_i hbreak
          exact isBlank_eq_false_of_isLineBreak hbreak
        · rename_i hbreak
          rw [if_neg hbreak] at hopen
          split
          · rename_i hback
            rw [if_pos hback] at hopen
            exact ih (Nat.lt_of_le_of_lt (length_escape_le cs) (by omega)) hopen
          · rename_i hback
            rw [if_neg hback] at hopen
            exact ih (by omega) hopen

/-- What is wrong with a literal is told by whether a piece is malformed. -/
theorem map_error_firstFlaw (offset : Nat) (pieces : List Piece) :
    (firstFlaw offset pieces).map Flaw.error =
      if pieces.all Piece.valid then none else some .invalidEscape := by
  induction pieces generalizing offset with
  | nil => rfl
  | cons piece pieces ih =>
    rw [firstFlaw, List.all_cons]
    cases hvalid : piece.valid with
    | true => simpa using ih _
    | false => simp

theorem echoes_lexeme {quote : Char} (hquote : isBlank quote = false) (hescape : '\\' ≠ quote)
    (cs : Text) : (lexeme quote cs).Echoes (lexeme quote (squeeze cs)) := by
  have hbody := settled hquote hescape cs (cs.length + 1) ((squeeze cs).length + 1)
    (Nat.lt_succ_self _) (Nat.lt_succ_self _)
  have hopens := opensBlank_rest quote (cs.length + 1) (Nat.lt_succ_self cs.length)
  have happend := lexeme_append quote cs
  have happend' := lexeme_append quote (squeeze cs)
  rw [← squeeze_cons_of_not hquote] at happend'
  unfold lexeme at happend happend' ⊢
  dsimp only at happend happend' ⊢
  rw [hbody.closed] at happend' ⊢
  split
  · rename_i hclosed
    rw [if_pos hclosed] at happend happend'
    refine .of_rest happend happend' rfl hbody.rest (fun hcloses => ?_) ?_
    · rw [closesBlank, List.getLast?_concat, Option.any_some, hquote] at hcloses
      cases hcloses
    · rw [map_error_firstFlaw, map_error_firstFlaw, hbody.valid]
  · rename_i hclosed
    rw [if_neg hclosed] at happend happend'
    exact .of_rest happend happend' rfl hbody.rest (fun _ => hopens (by simpa using hclosed)) rfl

end Quotation

/-! ## Regular expression literals -/

namespace Pattern

/-- What is left behind the closing slash. -/
def behind (bracketed : Bool) (cs : Text) : Option Text := (body bracketed cs).map Prod.snd

section
variable {bracketed : Bool} {c : Char} {cs : Text}

theorem behind_escape (d : Char) (ds : Text) : behind bracketed ('\\' :: d :: ds) =
    if isLineBreak d then none else behind bracketed ds := by
  have hbreak : isLineBreak '\\' = false := by decide
  cases hd : isLineBreak d <;> simp [behind, body, hbreak, hd, Function.comp_def]

/-- Other characters are passed, end the literal or break it off. -/
theorem behind_cons (hescape : c ≠ '\\') (cs : Text) : behind bracketed (c :: cs) =
    if isLineBreak c then none
    else if c == '/' && !bracketed then some cs
    else behind (if c == '[' then true else if c == ']' then false else bracketed) cs := by
  rw [behind, body.eq_def]
  simp only [beq_false_of_ne hescape, Bool.false_eq_true, ↓reduceIte]
  split
  · rfl
  · split
    · rfl
    · simp [behind, Function.comp_def]

/-- A blank is passed. -/
theorem behind_blank (hc : isBlank c = true) (cs : Text) :
    behind bracketed (c :: cs) = behind bracketed cs := by
  have hne (d : Char) (hd : isBlank d = false) : (c == d) = false := beq_eq_false_of_isBlank hc hd
  rw [behind_cons (ne_of_beq_false (hne '\\' (by decide))), isLineBreak_of_isBlank hc,
    hne '/' (by decide), hne '[' (by decide), hne ']' (by decide)]
  rfl

theorem behind_dropWhile (cs : Text) :
    behind bracketed (cs.dropWhile isBlank) = behind bracketed cs := by
  induction cs with
  | nil => rfl
  | cons c cs ih =>
    cases hc : isBlank c with
    | true => rw [List.dropWhile_cons_of_pos hc, ih, behind_blank hc]
    | false => rw [List.dropWhile_cons_of_neg (by simp [hc])]

end

/-- **A literal goes the same way on the squeezed text.** -/
theorem behind_squeeze (bracketed : Bool) (cs : Text) :
    behind bracketed (squeeze cs) = (behind bracketed cs).map squeeze := by
  induction hsize : cs.length using Nat.strong_induction_on generalizing bracketed cs with
  | h size ih =>
    subst hsize
    have hrest (bracketed : Bool) (ds : Text) (hlt : ds.length < cs.length) :
        behind bracketed (squeeze ds) = (behind bracketed ds).map squeeze :=
      ih ds.length hlt bracketed ds rfl
    cases cs with
    | nil => rfl
    | cons c cs =>
      have hdrop (ds : Text) (hle : ds.length ≤ cs.length) :
          behind bracketed (squeeze (ds.dropWhile isBlank)) =
            (behind bracketed ds).map squeeze := by
        have hshort : (ds.dropWhile isBlank).length ≤ ds.length :=
          (List.dropWhile_suffix isBlank).length_le
        rw [hrest bracketed _ (Nat.lt_succ_of_le (Nat.le_trans hshort hle)), behind_dropWhile]
      by_cases hc : isBlank c = true
      · rw [squeeze_cons_of_blank hc, behind_blank hc, behind_blank isBlank_space,
          hdrop cs (Nat.le_refl _)]
      have hblank : isBlank c = false := by simpa using hc
      rw [squeeze_cons_of_not hblank]
      by_cases hescape : c = '\\'
      · subst hescape
        cases cs with
        | nil => rfl
        | cons d ds =>
          cases hd : isBlank d with
          | true =>
            rw [squeeze_cons_of_blank hd, behind_escape, behind_escape, isLineBreak_of_isBlank hd,
              isLineBreak_of_isBlank isBlank_space]
            exact hdrop ds (Nat.le_succ _)
          | false =>
            rw [squeeze_cons_of_not hd, behind_escape, behind_escape]
            split
            · rfl
            · exact hrest bracketed ds (Nat.lt_succ_of_lt (Nat.lt_succ_self _))
      · rw [behind_cons hescape, behind_cons hescape]
        split
        · rfl
        · split
          · rfl
          · exact hrest _ cs (Nat.lt_succ_self _)

/-- A literal ends with its slash. -/
theorem closesBlank_body {bracketed : Bool} {cs read rest : Text}
    (h : body bracketed cs = some (read, rest)) : read ≠ [] ∧ read.closesBlank = false := by
  fun_induction body bracketed cs generalizing read with
  | case1 | case2 | case3 | case4 => exact absurd h (by simp)
  | case5 bracketed c hbreak hescape d ds hd ih =>
    simp only [Option.map_eq_some_iff, Prod.mk.injEq] at h
    obtain ⟨⟨read, rest⟩, hbody, rfl, rfl⟩ := h
    obtain ⟨hne, hcloses⟩ := ih hbody
    refine ⟨List.cons_ne_nil _ _, ?_⟩
    rw [closesBlank_cons (List.cons_ne_nil _ _), closesBlank_cons hne, hcloses]
  | case6 bracketed c cs hbreak hescape hslash =>
    simp only [Option.some.injEq, Prod.mk.injEq] at h
    obtain ⟨rfl, rfl⟩ := h
    rw [Bool.and_eq_true, beq_iff_eq] at hslash
    rw [hslash.1]
    exact ⟨List.cons_ne_nil _ _, by decide⟩
  | case7 bracketed c cs hbreak hescape hslash ih =>
    simp only [Option.map_eq_some_iff, Prod.mk.injEq] at h
    obtain ⟨⟨read, rest⟩, hbody, rfl, rfl⟩ := h
    obtain ⟨hne, hcloses⟩ := ih hbody
    exact ⟨List.cons_ne_nil _ _, by rw [closesBlank_cons hne, hcloses]⟩

theorem echoes_lexeme [Alphabet] (cs : Text) : (lexeme cs).Echoes (lexeme (squeeze cs)) := by
  have hstops (c : Char) (h : isBlank c = true) : isIdentContinue c = false :=
    isIdentContinue_of_isBlank h
  have hbehind := behind_squeeze false cs
  have happend := lexeme_append cs
  have happend' := lexeme_append (squeeze cs)
  rw [← squeeze_cons_of_not (by decide)] at happend'
  unfold behind at hbehind
  unfold lexeme at happend happend' ⊢
  cases hbody : body false cs with
  | none =>
    cases hbody' : body false (squeeze cs) with
    | none => exact .faulty (by decide) cs
    | some cut => simp [hbody, hbody'] at hbehind
  | some cut =>
    obtain ⟨read, rest⟩ := cut
    cases hbody' : body false (squeeze cs) with
    | none => simp [hbody, hbody'] at hbehind
    | some cut =>
      obtain ⟨read', rest'⟩ := cut
      simp only [hbody, hbody', Option.map_some, Option.some.injEq] at happend happend' hbehind
      subst hbehind
      refine .of_rest happend happend' rfl (dropWhile_squeeze_of_stops hstops rest)
        (fun hcloses => ?_) rfl
      obtain ⟨hne, hread⟩ := closesBlank_body hbody
      rw [← closesBlank_cons hne] at hread
      rw [closesBlank_append_solid hread (any_takeWhile_of_stops hstops rest)] at hcloses
      cases hcloses

end Pattern

/-! ## Code -/

namespace Code

theorem solid_longer {mode : Mode} {c : Char} {f : Family} (h : familyIn? mode c = some f) :
    ∀ m ∈ f.longer, m.1.any isBlank = false := by
  have hall : (f.longer.all fun m => !m.1.any isBlank) = true := by
    unfold familyIn? at h
    split at h
    · cases h
      rfl
    · split at h
      · cases h
        rfl
      · unfold family? at h
        split at h <;> simp only [Option.some.injEq, reduceCtorEq] at h <;> subst h <;> decide
  intro m hm
  simpa using List.all_eq_true.1 hall m hm

theorem echoes_operator {f : Family} (hf : ∀ m ∈ f.longer, m.1.any isBlank = false) {c : Char}
    (hc : isBlank c = false) (cs : Text) :
    (operator f c cs).Echoes (operator f c (squeeze cs)) := by
  have hfind : (f.longer.find? fun m => m.1.isPrefixOf (squeeze cs)) =
      f.longer.find? fun m => m.1.isPrefixOf cs :=
    List.find?_congr fun m hm => isPrefixOf_squeeze (hf m hm) cs
  unfold operator
  rw [hfind]
  split
  · rename_i more kind hmore
    have hsolid : more.any isBlank = false := hf _ (List.mem_of_find?_eq_some hmore)
    have hmark := List.find?_some hmore
    have hmore' : (f.longer.find? fun m => m.1.isPrefixOf cs) = some (more, kind) := hmore
    simp only [hmore', drop_squeeze hsolid hmark]
    refine .solid ?_ _
    rw [List.any_cons, hc, hsolid, Bool.or_self]
  · rename_i hmore
    have hmore' : (f.longer.find? fun m => m.1.isPrefixOf cs) = none := hmore
    simp only [hmore']
    refine .solid ?_ _
    rw [List.any_cons, hc, List.any_nil, Bool.or_self]

variable [Alphabet]

theorem echoes_word {c : Char} (hc : isBlank c = false) (cs : Text) :
    (word c cs).Echoes (word c (squeeze cs)) := by
  have hstops (c : Char) (h : isBlank c = true) : isIdentContinue c = false :=
    isIdentContinue_of_isBlank h
  have hsolid : (c :: cs.takeWhile isIdentContinue).any isBlank = false := by
    rw [List.any_cons, hc, any_takeWhile_of_stops hstops, Bool.or_self]
  simp only [word, takeWhile_squeeze_of_stops hstops, dropWhile_squeeze_of_stops hstops]
  exact .solid hsolid _

theorem atInfinity_squeeze (cs : Text) : atInfinity (squeeze cs) = atInfinity cs := by
  have hsolid : infinityWord.any isBlank = false := by decide
  rw [atInfinity, atInfinity, isPrefixOf_squeeze hsolid]
  cases hmark : infinityWord.isPrefixOf cs with
  | true =>
    rw [drop_squeeze hsolid hmark, any_head?_squeeze fun _ h => isIdentContinue_of_isBlank h]
  | false => rfl

/-- **A token of code at the head of a squeezed text is the squeezed token.** -/
theorem echoes_lexeme (mode : Mode) {cs : Text} (h : cs.opensBlank = false) :
    (lexeme mode cs).Echoes (lexeme mode (squeeze cs)) := by
  cases cs with
  | nil => exact ⟨rfl, rfl, rfl, rfl⟩
  | cons c cs =>
    have hc : isBlank c = false := h
    rw [squeeze_cons_of_not hc, lexeme, lexeme, Number.startsWithDigit_squeeze, atInfinity_squeeze]
    refine .choice (fun _ => ?number) fun _ => .choice (fun hquote => ?string) fun _ =>
      .choice (fun _ => Pattern.echoes_lexeme cs) fun _ =>
        .choice (fun hminus => ?infinity) fun _ => ?_
    case number =>
      rw [← squeeze_cons_of_not hc]
      exact Number.echoes_lexeme (c :: cs)
    case string =>
      rw [Bool.or_eq_true, beq_iff_eq, beq_iff_eq] at hquote
      refine Quotation.echoes_lexeme hc ?_ cs
      rcases hquote with rfl | rfl <;> decide
    case infinity =>
      simp only [Bool.and_eq_true, atInfinity] at hminus
      have hinfinity : infinityWord.any isBlank = false := by decide
      rw [drop_squeeze hinfinity hminus.2.1]
      refine .solid ?_ _
      rw [List.any_cons, hc, hinfinity, Bool.or_self]
    split
    · rename_i f hf
      exact echoes_operator (solid_longer hf) hc cs
    · exact .choice (fun _ => echoes_word hc cs) fun _ => .faulty (by simp [hc]) cs

end Code

end ActionScript
