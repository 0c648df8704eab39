import ActionScript.Proofs.Literals.Strings
import ActionScript.Proofs.Literals.Patterns

/-!
# Escapes that are not well written

An escape with `x` or `u` that lacks digits, has too many of them or is not closed is reported where
the tokens are read.  What is read of it then stands for itself, unless the reader of values finds a
number there all the same: it takes a plus sign for the first digit, and any number of leading zeros
between braces.

* `Broken`: what is read of such an escape.
* `Loose`: the numbers that only the reader of values accepts.
* `found_escape`: the reader of tokens finds an escape or a broken one.
* `view_broken`, `view_loose`: what the reader of values makes of a broken one.
* `Decodes`: what pieces stand for, one after the other.
* `body_congr`, `exists_decodes`, `Decodes.decode_eq`: the two readers go along the same pieces.
* `lexeme_pieces`: a literal is read as its own pieces, whatever follows it.
* `literal_decodes`: **every literal of a tree stands for its pieces**.
-/

set_option autoImplicit false

namespace ActionScript.Quotation

/-! ## Broken escapes -/

/-- What is read of an escape that is not well written. -/
inductive Broken where
  /-- An `x` and less than two digits. -/
  | hex (ds : Text) (h : ds.length < 2 ∧ ∀ d ∈ ds, isHexDigit d = true)
  /-- A `u` and less than four digits. -/
  | unicode (ds : Text) (h : ds.length < 4 ∧ ∀ d ∈ ds, isHexDigit d = true)
  /-- A `u`, an opening brace and digits. -/
  | braced (ds : Text) (h : ∀ d ∈ ds, isHexDigit d = true)

namespace Broken

def letter : Broken → Char
  | hex _ _ => 'x'
  | unicode _ _ | braced _ _ => 'u'

/-- What is written behind the letter. -/
def content : Broken → Text
  | hex ds _ | unicode ds _ => ds
  | braced ds _ => '{' :: ds

/-- What is written behind the backslash. -/
def tail (b : Broken) : Text := b.letter :: b.content

/-- What follows does not go on with the escape, and does not close it. -/
def Stops (cs : Text) : Broken → Prop
  | hex _ _ => ∀ c ∈ cs.head?, isHexDigit c = false
  | unicode ds _ => ∀ c ∈ cs.head?, isHexDigit c = false ∧ (ds = [] → c ≠ '{')
  | braced ds _ => ∀ c ∈ cs.head?, isHexDigit c = false ∧ (c = '}' → ds.length = 0 ∨ 6 < ds.length)

theorem Stops.mono {b : Broken} {cs ds : Text} (h : b.Stops cs)
    (hhead : ∀ c ∈ ds.head?, c ∈ cs.head?) : b.Stops ds := by
  cases b <;> exact fun c hc => h c (hhead c hc)

end Broken

theorem Escape.Ends.mono {e : Escape} {cs ds : Text} (h : e.Ends cs)
    (hhead : ∀ c ∈ ds.head?, c ∈ cs.head?) : e.Ends ds := by
  cases e with
  | octal ds hds => exact fun hlt c hc => h hlt c (hhead c hc)
  | newline text htext => exact fun hreturn hc => h hreturn (hhead _ hc)
  | _ => trivial

theorem atMost_length_le (count : Nat) (p : Char → Bool) (cs : Text) :
    (atMost count p cs).length ≤ count :=
  Nat.le_trans (List.takeWhile_sublist _).length_le (List.length_take_le _ _)

theorem of_mem_atMost {count : Nat} {p : Char → Bool} {cs : Text} {c : Char}
    (h : c ∈ atMost count p cs) : p c = true := List.mem_takeWhile_imp h

/-- Where less than `count` characters are taken, the next one is not of the class. -/
theorem not_of_head?_drop_atMost {count : Nat} {p : Char → Bool} {cs : Text}
    (h : (atMost count p cs).length < count) :
    ∀ c ∈ (cs.drop (atMost count p cs).length).head?, p c = false := by
  induction cs generalizing count with
  | nil => simp
  | cons d cs ih =>
    obtain ⟨count, rfl⟩ := Nat.exists_eq_succ_of_ne_zero (Nat.ne_of_gt (Nat.zero_lt_of_lt h))
    simp only [atMost, List.take_succ_cons, List.takeWhile_cons] at h ⊢
    split at h
    · rename_i hd
      rw [if_pos hd, List.length_cons, List.drop_succ_cons]
      exact ih (Nat.lt_of_succ_lt_succ h)
    · rename_i hd
      rw [if_neg hd]
      rintro c ⟨⟩
      exact Bool.eq_false_iff.2 hd

theorem not_of_head?_dropWhile {p : Char → Bool} {cs : Text} :
    ∀ c ∈ (cs.dropWhile p).head?, p c = false := by
  intro c hc
  have := List.head?_dropWhile_not p cs
  rw [hc] at this
  simpa using this

/-- What the reader of tokens finds behind a backslash. -/
def Found (cut : Piece × Text) : Prop :=
  (∃ e : Escape, cut.1 = ⟨'\\' :: e.tail, true⟩ ∧ e.Ends cut.2) ∨
    ∃ b : Broken, cut.1 = ⟨'\\' :: b.tail, false⟩ ∧ b.Stops cut.2

theorem found_bracedEscape (cs : Text) : Found (bracedEscape cs) := by
  have hds : ∀ d ∈ cs.takeWhile isHexDigit, isHexDigit d = true :=
    fun d hd => List.mem_takeWhile_imp hd
  rw [bracedEscape_eq]
  split
  · rename_i hcount
    simp only [Bool.and_eq_true, decide_eq_true_eq] at hcount
    split
    · exact .inl ⟨.braced _ ⟨List.ne_nil_of_length_pos hcount.1, hcount.2, hds⟩, rfl, trivial⟩
    · rename_i hclose
      refine .inr ⟨.braced _ hds, rfl, fun c hc => ⟨not_of_head?_dropWhile c hc, ?_⟩⟩
      rintro rfl
      exact absurd hc hclose
  · rename_i hcount
    refine .inr ⟨.braced _ hds, rfl, fun c hc => ⟨not_of_head?_dropWhile c hc, fun _ => ?_⟩⟩
    simp only [Bool.and_eq_true, decide_eq_true_eq] at hcount
    omega

/-- **Behind a backslash is an escape or a broken one**, and what follows does not belong to it. -/
theorem found_escape {cs : Text} (h : cs ≠ []) : Found (escape cs) := by
  cases cs with
  | nil => exact absurd rfl h
  | cons c cs =>
    have hhex (count : Nat) : ∀ d ∈ atMost count isHexDigit cs, isHexDigit d = true :=
      fun _ => of_mem_atMost
    rw [escape_cons]
    split
    · rw [hexEscape]
      rcases Nat.lt_or_eq_of_le (atMost_length_le 2 isHexDigit cs) with hlt | heq
      · rw [beq_false_of_ne hlt.ne]
        exact .inr ⟨.hex _ ⟨hlt, hhex 2⟩, rfl, not_of_head?_drop_atMost hlt⟩
      · rw [heq]
        exact .inl ⟨.hex _ ⟨heq, hhex 2⟩, rfl, trivial⟩
    · rename_i hx
      split
      · split
        · exact found_bracedEscape _
        · rename_i hbrace
          rw [hexEscape]
          rcases Nat.lt_or_eq_of_le (atMost_length_le 4 isHexDigit cs) with hlt | heq
          · rw [beq_false_of_ne hlt.ne]
            refine .inr ⟨.unicode _ ⟨hlt, hhex 4⟩, rfl,
              fun c hc => ⟨not_of_head?_drop_atMost hlt c hc, fun hnil => ?_⟩⟩
            rintro rfl
            rw [hnil] at hc
            exact hbrace hc
          · rw [heq]
            exact .inl ⟨.unicode _ ⟨heq, hhex 4⟩, rfl, trivial⟩
      · rename_i hu
        split
        · exact .inl ⟨.newline ['\r', '\n'] (.inr (.inr rfl)), rfl, fun h => by cases h⟩
        · rename_i hfeed
          split
          · rename_i hoctal
            refine .inl
              ⟨.octal (atMost 3 isOctalDigit (c :: cs))
                ⟨?_, atMost_length_le _ _ _, fun _ => of_mem_atMost⟩,
              rfl, not_of_head?_drop_atMost⟩
            simp [atMost, hoctal]
          · rename_i hoctal
            by_cases hn : c = '\n'
            · subst hn
              exact .inl ⟨.newline ['\n'] (.inl rfl), rfl, fun h => by cases h⟩
            · by_cases hr : c = '\r'
              · subst hr
                exact .inl ⟨.newline ['\r'] (.inr (.inl rfl)), rfl, fun _ hc => hfeed ⟨rfl, hc⟩⟩
              · exact .inl ⟨.single c ⟨hx, hu, Bool.eq_false_iff.2 hoctal, hn, hr⟩, rfl, trivial⟩

theorem takeWhile_append_of_head? {p : Char → Bool} {ds cs : Text} (hds : ∀ d ∈ ds, p d = true)
    (hcs : ∀ c ∈ cs.head?, p c = false) :
    (ds ++ cs).takeWhile p = ds ∧ (ds ++ cs).dropWhile p = cs := by
  cases cs with
  | nil => simpa using hds
  | cons c cs => exact takeWhile_append_cons hds (hcs c rfl) cs

/-- Digits begin with no brace. -/
theorem head?_append_ne_brace {ds cs : Text} (hds : ∀ d ∈ ds, isHexDigit d = true)
    (hcs : ds = [] → cs.head? ≠ some '{') : (ds ++ cs).head? ≠ some '{' := by
  cases ds with
  | nil => exact hcs rfl
  | cons d ds => exact fun hc => ne_of_isHexDigit (hds d (by simp)) (by decide) (Option.some.inj hc)

/-- **The reader of tokens takes a broken escape** up to where it stops. -/
theorem escape_broken (b : Broken) {cs : Text} (h : b.Stops cs) :
    escape (b.tail ++ cs) = (⟨'\\' :: b.tail, false⟩, cs) := by
  cases b with
  | hex ds hds =>
    change hexEscape ['\\', 'x'] 2 (ds ++ cs) = _
    rw [hexEscape, atMost_append hds.2 hds.1.le fun _ => h, List.drop_left,
      beq_false_of_ne hds.1.ne]
    rfl
  | unicode ds hds =>
    have hbrace : (ds ++ cs).head? ≠ some '{' :=
      head?_append_ne_brace hds.2 fun hnil hc => (h _ hc).2 hnil rfl
    change escape ('u' :: (ds ++ cs)) = _
    rw [escape_cons, if_neg (by decide), if_pos rfl, if_neg hbrace, hexEscape,
      atMost_append hds.2 hds.1.le fun _ c hc => (h c hc).1, List.drop_left,
      beq_false_of_ne hds.1.ne]
    rfl
  | braced ds hds =>
    have htake := takeWhile_append_of_head? hds fun c hc => (h c hc).1
    have hread : escape ('u' :: '{' :: (ds ++ cs)) = bracedEscape (ds ++ cs) := by simp [escape]
    change escape ('u' :: '{' :: (ds ++ cs)) = _
    rw [hread, bracedEscape_eq, htake.1, htake.2]
    split
    · rename_i hcount
      simp only [Bool.and_eq_true, decide_eq_true_eq] at hcount
      rw [if_neg fun hclose => ?_]
      · rfl
      · have := (h _ hclose).2 rfl
        omega
    · rfl

/-- An escape and a broken one are the same in front of whatever begins as what followed. -/
theorem escape_congr {cs ds : Text} (h : cs ≠ [])
    (hhead : ∀ c ∈ ds.head?, c ∈ (escape cs).2.head?) :
    ∃ t, (escape cs).1.text = '\\' :: t ∧ escape (t ++ ds) = ((escape cs).1, ds) := by
  rcases found_escape h with ⟨e, he, hends⟩ | ⟨b, hb, hstops⟩
  · exact ⟨e.tail, by rw [he], by rw [he, escape_tail e (hends.mono hhead)]⟩
  · exact ⟨b.tail, by rw [hb], by rw [hb, escape_broken b (hstops.mono hhead)]⟩

/-! ## Numbers that only one reader accepts -/

/-- What stands behind a backslash is no escape, but the reader of values finds a number there: a
plus sign is written for the first digit, or there are more than six digits between the braces. -/
inductive Loose : Text → Nat → Prop
  | hex {d : Char} : isHexDigit d = true → Loose ['x', '+', d] (number 16 [d])
  | unicode {ds : Text} : ds.length = 3 → (∀ d ∈ ds, isHexDigit d = true) →
      Loose ('u' :: '+' :: ds) (number 16 ds)
  | signed {ds : Text} : ds ≠ [] → (∀ d ∈ ds, isHexDigit d = true) → number 16 ds < 0x100000000 →
      Loose (['u', '{', '+'] ++ ds ++ ['}']) (number 16 ds)
  | long {ds : Text} :
      6 < ds.length → (∀ d ∈ ds, isHexDigit d = true) → number 16 ds < 0x100000000 →
      Loose (['u', '{'] ++ ds ++ ['}']) (number 16 ds)

/-- A row of digits is read as a number of 32 bits, with or without a plus sign. -/
theorem hexNumber?_eq_some {t : Text} {n : Nat} : Literal.hexNumber? t = some n ↔
    ∃ ds, (t = ds ∨ t = '+' :: ds) ∧ ds ≠ [] ∧ (∀ d ∈ ds, isHexDigit d = true) ∧
      number 16 ds = n ∧ n < 0x100000000 := by
  have hread (ds : Text) :
      (if !ds.isEmpty && ds.all isHexDigit && Literal.digitsValue 16 ds < 0x100000000 then
        some (Literal.digitsValue 16 ds) else none) = some n ↔
      ds ≠ [] ∧ (∀ d ∈ ds, isHexDigit d = true) ∧ number 16 ds = n ∧ n < 0x100000000 := by
    by_cases hds : ∀ d ∈ ds, isHexDigit d = true
    · have hall : ds.all isHexDigit = true := List.all_eq_true.2 hds
      rw [digitsValue_eq_number 16 hds, hall]
      grind
    · have hall : ds.all isHexDigit = false := by simpa using hds
      simp [hall, hds]
  unfold Literal.hexNumber?
  split
  · rename_i ds
    constructor
    · exact fun h => ⟨ds, .inr rfl, (hread ds).1 h⟩
    · rintro ⟨es, rfl | hes, h⟩
      · exact absurd (h.2.1 '+' (by simp)) (by decide)
      · obtain rfl : ds = es := (List.cons.inj hes).2
        exact (hread ds).2 h
  · rename_i hsign
    constructor
    · exact fun h => ⟨t, .inl rfl, (hread t).1 h⟩
    · rintro ⟨es, rfl | rfl, h⟩
      · exact (hread t).2 h
      · exact absurd rfl (hsign es)

/-- A number has as many bytes as characters, and no closing brace in it. -/
theorem plain_of_hexNumber? {t : Text} {n : Nat} (h : Literal.hexNumber? t = some n) :
    Text.size t = t.length ∧ ∀ c ∈ t, (c != '}') = true := by
  obtain ⟨ds, ht, -, hds, -⟩ := hexNumber?_eq_some.1 h
  have hclose : ∀ c ∈ ds, (c != '}') = true := fun c hc =>
    bne_iff_ne.2 (ne_of_isHexDigit (hds c hc) (by decide))
  rcases ht with rfl | rfl
  · exact ⟨size_of_isHexDigit hds, hclose⟩
  · refine ⟨?_, by simpa using hclose⟩
    rw [Text.size_cons, size_of_isHexDigit hds, List.length_cons, Nat.add_comm]
    rfl

/-- An escape of a fixed number of characters is a number of that length. -/
theorem fixedEscape?_append {t : Text} {n : Nat} (h : Literal.hexNumber? t = some n) (cs : Text) :
    Literal.fixedEscape? t.length (t ++ cs) = some (scalar n, cs) := by
  rw [Literal.fixedEscape?, List.take_left, List.drop_left, (plain_of_hexNumber? h).1, h,
    if_pos (beq_self_eq_true _), Option.map_some, character_eq_scalar]

theorem exists_of_fixedEscape? {count : Nat} {cs : Text} {cut : Text × Text}
    (h : Literal.fixedEscape? count cs = some cut) :
    ∃ t n, cs = t ++ cut.2 ∧ t.length = count ∧ Literal.hexNumber? t = some n := by
  rw [Literal.fixedEscape?] at h
  simp only [Option.ite_none_right_eq_some, Option.map_eq_some_iff, beq_iff_eq] at h
  obtain ⟨hcount, n, hn, rfl⟩ := h
  refine ⟨cs.take count, n, (List.take_append_drop count cs).symm, ?_, hn⟩
  rw [← (plain_of_hexNumber? hn).1, hcount]

/-- An escape in braces is a number up to the first closing brace. -/
theorem bracedEscape?_append {t : Text} {n : Nat} (h : Literal.hexNumber? t = some n) (cs : Text) :
    Literal.bracedEscape? (t ++ '}' :: cs) = some (scalar n, cs) := by
  obtain ⟨htake, hdrop⟩ := takeWhile_append_cons (p := (· != '}')) (c := '}')
    (plain_of_hexNumber? h).2 (by decide) cs
  rw [Literal.bracedEscape?, htake, hdrop, h]
  simp [character_eq_scalar]

theorem exists_of_bracedEscape? {cs : Text} {cut : Text × Text}
    (h : Literal.bracedEscape? cs = some cut) :
    ∃ t n, cs = t ++ '}' :: cut.2 ∧ Literal.hexNumber? t = some n := by
  unfold Literal.bracedEscape? at h
  split at h
  · rename_i c ds hclose
    simp only [Option.map_eq_some_iff] at h
    obtain ⟨n, hn, rfl⟩ := h
    have hc : c = '}' := by
      have hhead : c ∈ (cs.dropWhile (· != '}')).head? := by rw [hclose]; rfl
      simpa using not_of_head?_dropWhile c hhead
    rw [hc] at hclose
    refine ⟨_, n, ?_, hn⟩
    rw [← hclose, List.takeWhile_append_dropWhile]
  · cases h

theorem view_unicode {cs : Text} (h : cs.head? ≠ some '{') :
    Literal.escape ('u' :: cs) = (Literal.fixedEscape? 4 cs).getD (['\\', 'u'], cs) := by
  rw [Literal.escape]
  rintro ds rfl
  exact h rfl

/-- **The reader of values takes a loose number.** -/
theorem view_loose {t : Text} {n : Nat} (h : Loose t n) (cs : Text) :
    Literal.escape (t ++ cs) = (scalar n, cs) := by
  have hsign {ds : Text} (hne : ds ≠ []) (hds : ∀ d ∈ ds, isHexDigit d = true)
      (hlt : number 16 ds < 0x100000000) : Literal.hexNumber? ('+' :: ds) = some (number 16 ds) :=
    hexNumber?_eq_some.2 ⟨ds, .inr rfl, hne, hds, rfl, hlt⟩
  have hfits {ds : Text} (hlength : ds.length ≤ 8) (hds : ∀ d ∈ ds, isHexDigit d = true) :
      number 16 ds < 0x100000000 :=
    Nat.lt_of_lt_of_le (number_lt 16 (by decide) fun d hd => (digitValue_eq_digit (hds d hd)).2)
      (Nat.pow_le_pow_right (n := 16) (by decide) hlength)
  cases h with
  | @hex d hd =>
    have hds : ∀ c ∈ [d], isHexDigit c = true := by simpa using hd
    have hread := fixedEscape?_append (hsign (by simp) hds (hfits (by simp) hds)) cs
    change (Literal.fixedEscape? 2 (['+', d] ++ cs)).getD _ = _
    rw [show 2 = ['+', d].length from rfl, hread]
    rfl
  | @unicode ds hlength hds =>
    have hne : ds ≠ [] := by
      rintro rfl
      cases hlength
    have hread := fixedEscape?_append (hsign hne hds (hfits (by omega) hds)) cs
    rw [List.length_cons, hlength] at hread
    change (Literal.fixedEscape? 4 ('+' :: ds ++ cs)).getD _ = _
    rw [hread]
    rfl
  | @signed ds hne hds hlt =>
    have hopen : Literal.escape (['u', '{', '+'] ++ ds ++ ['}'] ++ cs) =
        (Literal.bracedEscape? ('+' :: ds ++ '}' :: cs)).getD
          (['\\', 'u'], '{' :: ('+' :: ds ++ '}' :: cs)) := by
      simp [Literal.escape]
    rw [hopen, bracedEscape?_append (hsign hne hds hlt)]
    rfl
  | @long ds hlong hds hlt =>
    have hne : ds ≠ [] := List.ne_nil_of_length_pos (Nat.zero_lt_of_lt hlong)
    have hopen : Literal.escape (['u', '{'] ++ ds ++ ['}'] ++ cs) =
        (Literal.bracedEscape? (ds ++ '}' :: cs)).getD (['\\', 'u'], '{' :: (ds ++ '}' :: cs)) := by
      simp [Literal.escape]
    rw [hopen, bracedEscape?_append (hexNumber?_eq_some.2 ⟨ds, .inl rfl, hne, hds, rfl, hlt⟩)]
    rfl

/-- Digits in front of what is no digit are not the beginning of more digits. -/
theorem not_digits {ds cs es rest : Text} (hcs : ∀ c ∈ cs.head?, isHexDigit c = false)
    (hes : ∀ d ∈ es, isHexDigit d = true) (hlength : ds.length < es.length) :
    ds ++ cs ≠ es ++ rest := by
  intro h
  rcases List.append_eq_append_iff.1 h with ⟨more, rfl, rfl⟩ | ⟨more, rfl, -⟩
  · cases more with
    | nil => simp at hlength
    | cons d more =>
      have hd := hes d (by simp)
      rw [hcs d rfl] at hd
      cases hd
  · simp at hlength

/-- Behind digits there is a plus sign only if there are no digits. -/
theorem nil_of_append_eq_plus {ds cs rest : Text} (hds : ∀ d ∈ ds, isHexDigit d = true)
    (h : ds ++ cs = '+' :: rest) : ds = [] ∧ cs = '+' :: rest := by
  cases ds with
  | nil => exact ⟨rfl, h⟩
  | cons d ds =>
    obtain rfl : d = '+' := (List.cons.inj h).1
    exact absurd (hds '+' (by simp)) (by decide)

/-- A broken escape and what follows it begin with a loose number, the broken escape being in it. -/
def Broken.IsLoose (b : Broken) (cs : Text) : Prop :=
  ∃ t n rest, cs = t ++ rest ∧ Loose (b.tail ++ t) n

/-- **The reader of values takes only the letter of a broken escape**, but for loose numbers. -/
theorem view_broken (b : Broken) {cs : Text} (h : b.Stops cs) (hloose : ¬b.IsLoose cs) :
    Literal.escape (b.tail ++ cs) = (['\\', b.letter], b.content ++ cs) := by
  cases b with
  | hex ds hds =>
    change (Literal.fixedEscape? 2 (ds ++ cs)).getD _ = _
    cases hread : Literal.fixedEscape? 2 (ds ++ cs) with
    | none => rfl
    | some cut =>
      obtain ⟨t, n, ht, hlength, hn⟩ := exists_of_fixedEscape? hread
      obtain ⟨es, rfl | rfl, -, hes, rfl, hlt⟩ := hexNumber?_eq_some.1 hn
      · exact absurd ht (not_digits h hes (by omega))
      · obtain ⟨rfl, rfl⟩ := nil_of_append_eq_plus hds.2 ht
        obtain ⟨d, rfl⟩ := List.length_eq_one_iff.1 (Nat.succ.inj hlength)
        exact absurd ⟨['+', d], _, cut.2, rfl, .hex (hes d (by simp))⟩ hloose
  | unicode ds hds =>
    have hbrace : (ds ++ cs).head? ≠ some '{' :=
      head?_append_ne_brace hds.2 fun hnil hc => (h _ hc).2 hnil rfl
    change Literal.escape ('u' :: (ds ++ cs)) = _
    rw [view_unicode hbrace]
    cases hread : Literal.fixedEscape? 4 (ds ++ cs) with
    | none => rfl
    | some cut =>
      obtain ⟨t, n, ht, hlength, hn⟩ := exists_of_fixedEscape? hread
      obtain ⟨es, rfl | rfl, -, hes, rfl, hlt⟩ := hexNumber?_eq_some.1 hn
      · exact absurd ht (not_digits (fun c hc => (h c hc).1) hes (by omega))
      · obtain ⟨rfl, rfl⟩ := nil_of_append_eq_plus hds.2 ht
        exact absurd ⟨'+' :: es, _, cut.2, rfl, .unicode (Nat.succ.inj hlength) hes⟩ hloose
  | braced ds hds =>
    change (Literal.bracedEscape? (ds ++ cs)).getD _ = _
    cases hread : Literal.bracedEscape? (ds ++ cs) with
    | none => rfl
    | some cut =>
      obtain ⟨t, n, ht, hn⟩ := exists_of_bracedEscape? hread
      obtain ⟨es, rfl | rfl, hne, hes, rfl, hlt⟩ := hexNumber?_eq_some.1 hn
      · have hdigits := takeWhile_append_of_head? hds fun c hc => (h c hc).1
        obtain ⟨htake, hdrop⟩ := takeWhile_append_cons hes (c := '}') (by decide) cut.2
        rw [← ht] at htake hdrop
        obtain rfl : t = ds := htake.symm.trans hdigits.1
        obtain rfl : cs = '}' :: cut.2 := hdigits.2.symm.trans hdrop
        have hlong : 6 < t.length :=
          ((h '}' rfl).2 rfl).resolve_left fun hnil => hne (List.length_eq_zero_iff.1 hnil)
        exact absurd ⟨['}'], _, cut.2, rfl, .long hlong hes hlt⟩ hloose
      · obtain ⟨rfl, rfl⟩ := nil_of_append_eq_plus hds ht
        exact absurd ⟨'+' :: es ++ ['}'], _, cut.2, by simp, .signed hne hes hlt⟩ hloose

/-! ## Along the pieces -/

/-- A character that is plain between quotes of either sort. -/
def Sober (c : Char) : Prop := c ≠ '"' ∧ c ≠ '\'' ∧ c ≠ '\\' ∧ isLineBreak c = false

theorem sober_of_isHexDigit {c : Char} (h : isHexDigit c = true) : Sober c := by
  have hall :
      ∀ n < 128, isHexDigit (Char.ofNat n) = true → isLineBreak (Char.ofNat n) = false := by decide
  refine ⟨ne_of_isHexDigit h (by decide), ne_of_isHexDigit h (by decide),
    ne_of_isHexDigit h (by decide), ?_⟩
  have := hall c.toNat (toNat_lt_of_isHexDigit h)
  rw [Char.ofNat_toNat] at this
  exact this h

theorem Broken.sober (b : Broken) : ∀ c ∈ b.content, Sober c := by
  cases b with
  | hex ds h | unicode ds h => exact fun c hc => sober_of_isHexDigit (h.2 c hc)
  | braced ds h =>
    have hbrace : Sober '{' := by unfold Sober; decide
    simpa [content, hbrace] using fun c hc => sober_of_isHexDigit (h c hc)

theorem Loose.sober {t : Text} {n : Nat} (h : Loose t n) : ∀ c ∈ t, Sober c := by
  have hfixed : Sober 'x' ∧ Sober 'u' ∧ Sober '{' ∧ Sober '}' ∧ Sober '+' := by unfold Sober; decide
  cases h with
  | hex hd => simpa [hfixed] using sober_of_isHexDigit hd
  | unicode hlength hds => simpa [hfixed] using fun c hc => sober_of_isHexDigit (hds c hc)
  | signed hne hds hlt | long hlong hds hlt =>
    simp only [List.mem_append, List.mem_cons, List.not_mem_nil, or_false]
    rintro c ((hc | hc) | rfl)
    · rcases hc with rfl | rfl | rfl <;> simp [hfixed]
    · exact sober_of_isHexDigit (hds c hc)
    · exact hfixed.2.2.2.1

/-- Plain characters are pieces of their own. -/
def plain (t : Text) : List Piece := t.map fun c => ⟨[c], true⟩

@[simp] theorem flatMap_plain (t : Text) : (plain t).flatMap Piece.text = t := by
  simp [plain, List.flatMap_map]

/-- **What pieces stand for.**  Escapes stand for what they denote, and broken escapes, like plain
characters, for themselves.  Where a broken escape and the characters behind it make up a loose
number, they stand for what that number denotes. -/
inductive Decodes : List Piece → Text → Prop
  | nil : Decodes [] []
  | plain {c : Char} {ps : List Piece} {v : Text} :
      c ≠ '\\' → Decodes ps v → Decodes (⟨[c], true⟩ :: ps) (c :: v)
  | escape {e : Escape} {ps : List Piece} {v : Text} :
      e.Ends (ps.flatMap Piece.text) → Decodes ps v →
      Decodes (⟨'\\' :: e.tail, true⟩ :: ps) (e.denoted ++ v)
  | broken {b : Broken} {ps : List Piece} {v : Text} :
      b.Stops (ps.flatMap Piece.text) → ¬b.IsLoose (ps.flatMap Piece.text) → Decodes ps v →
      Decodes (⟨'\\' :: b.tail, false⟩ :: ps) ('\\' :: b.tail ++ v)
  | loose {b : Broken} {t : Text} {n : Nat} {ps : List Piece} {v : Text} :
      Loose (b.tail ++ t) n → Decodes ps v →
      Decodes (⟨'\\' :: b.tail, false⟩ :: Quotation.plain t ++ ps) (scalar n ++ v)

theorem decode_plain {c : Char} (hc : c ≠ '\\') (limit : Nat) (cs : Text) :
    Literal.decode (limit + 1) (c :: cs) = c :: Literal.decode limit cs := by
  rw [Literal.decode, if_neg (by simpa using hc)]

theorem decode_escape (limit : Nat) (cs : Text) : Literal.decode (limit + 1) ('\\' :: cs) =
    (Literal.escape cs).1 ++ Literal.decode limit (Literal.escape cs).2 := rfl

/-- The reader of values passes over plain characters. -/
theorem decode_append {t : Text} (ht : ∀ c ∈ t, Sober c) (limit : Nat) (cs : Text) :
    Literal.decode (limit + t.length) (t ++ cs) = t ++ Literal.decode limit cs := by
  induction t with
  | nil => rfl
  | cons c t ih =>
    rw [List.length_cons, ← Nat.add_assoc, List.cons_append, decode_plain (ht c (by simp)).2.2.1,
      ih fun d hd => ht d (by simp [hd]), List.cons_append]

/-- **The reader of values finds what the pieces stand for.** -/
theorem Decodes.decode_eq {ps : List Piece} {v : Text} (h : Decodes ps v) {limit : Nat}
    (hlimit : (ps.flatMap Piece.text).length ≤ limit) :
    Literal.decode limit (ps.flatMap Piece.text) = v := by
  induction h generalizing limit with
  | nil => cases limit <;> rfl
  | @plain c ps v hc h ih =>
    simp only [List.flatMap_cons, List.length_append, List.length_singleton] at hlimit
    obtain ⟨limit, rfl⟩ : ∃ l, limit = l + 1 := ⟨limit - 1, by omega⟩
    rw [List.flatMap_cons, List.singleton_append, decode_plain hc, ih (by omega)]
  | @escape e ps v hends h ih =>
    simp only [List.flatMap_cons, List.length_append, List.length_cons] at hlimit
    obtain ⟨limit, rfl⟩ : ∃ l, limit = l + 1 := ⟨limit - 1, by omega⟩
    rw [List.flatMap_cons, List.cons_append, decode_escape, view_tail e hends, ih (by omega)]
  | @broken b ps v hstops hloose h ih =>
    simp only [List.flatMap_cons, List.length_append, List.length_cons, Broken.tail] at hlimit
    obtain ⟨limit, rfl⟩ : ∃ l, limit = l + b.content.length + 1 :=
      ⟨limit - b.content.length - 1, by omega⟩
    rw [List.flatMap_cons, List.cons_append, decode_escape, view_broken b hstops hloose,
      decode_append b.sober, ih (by omega)]
    rfl
  | @loose b t n ps v hloose h ih =>
    simp only [List.cons_append, List.flatMap_cons, List.flatMap_append, flatMap_plain,
      List.length_append, List.length_cons] at hlimit
    obtain ⟨limit, rfl⟩ : ∃ l, limit = l + 1 := ⟨limit - 1, by omega⟩
    rw [List.cons_append, List.flatMap_cons, List.flatMap_append, flatMap_plain, List.cons_append,
      decode_escape, ← List.append_assoc, view_loose hloose, ih (by omega)]

variable {quote : Char} {limit : Nat}

/-- What a body goes on with behind its first piece. -/
theorem body_cases {cs rest : Text} {ps : List Piece}
    (h : body quote (limit + 1) cs = ⟨ps, rest, true⟩) : cs = quote :: rest ∧ ps = [] ∨
    (∃ c ds qs, cs = c :: ds ∧ ps = ⟨[c], true⟩ :: qs ∧ c ≠ quote ∧ c ≠ '\\' ∧
      isLineBreak c = false ∧
      body quote limit ds = ⟨qs, rest, true⟩) ∨
    ∃ ds qs, cs = '\\' :: ds ∧ ds ≠ [] ∧ ps = (escape ds).1 :: qs ∧
      body quote limit (escape ds).2 = ⟨qs, rest, true⟩ := by
  cases cs with
  | nil => simp [body] at h
  | cons c ds =>
    by_cases hc : c = quote
    · subst hc
      rw [body_quote, Body.mk.injEq] at h
      exact .inl ⟨by rw [h.2.1], h.1.symm⟩
    · cases hbreak : isLineBreak c with
      | true =>
        rw [body_break hc hbreak, Body.mk.injEq] at h
        exact absurd h.2.2 Bool.false_ne_true
      | false =>
        by_cases hescape : c = '\\'
        · subst hescape
          rw [body_escape hc, Body.cons, Body.mk.injEq] at h
          obtain ⟨rfl, rfl, hclosed⟩ := h
          refine .inr (.inr ⟨ds, _, rfl, ?_, rfl, ?_⟩)
          · rintro rfl
            cases limit <;> simp [escape, body] at hclosed
          · rw [← hclosed]
        · rw [body_plain hc hbreak hescape, Body.cons, Body.mk.injEq] at h
          obtain ⟨rfl, rfl, hclosed⟩ := h
          exact .inr (.inl ⟨c, ds, _, rfl, rfl, hc, hescape, hbreak, by rw [← hclosed]⟩)

/-- No body is closed without a character. -/
theorem exists_of_body {cs rest : Text} {ps : List Piece}
    (h : body quote limit cs = ⟨ps, rest, true⟩) : ∃ l, limit = l + 1 := by
  cases limit with
  | zero => simp [body] at h
  | succ limit => exact ⟨limit, rfl⟩

/-- Plain characters are pieces of their own. -/
theorem body_skip (hquote : quote = '"' ∨ quote = '\'') {t cs rest : Text} {ps : List Piece}
    (ht : ∀ c ∈ t, Sober c) (h : body quote limit (t ++ cs) = ⟨ps, rest, true⟩) :
    ∃ l ≤ limit, ∃ qs, ps = plain t ++ qs ∧ body quote l cs = ⟨qs, rest, true⟩ := by
  induction t generalizing limit ps with
  | nil => exact ⟨limit, Nat.le_refl _, ps, rfl, h⟩
  | cons c t ih =>
    obtain ⟨limit, rfl⟩ := exists_of_body h
    obtain ⟨hdouble, hsingle, hescape, hbreak⟩ := ht c (by simp)
    have hc : c ≠ quote := by rcases hquote with rfl | rfl <;> assumption
    rw [List.cons_append, body_plain hc hbreak hescape, Body.cons, Body.mk.injEq] at h
    obtain ⟨rfl, rfl, hclosed⟩ := h
    have hmore : body quote limit (t ++ cs) = ⟨(body quote limit (t ++ cs)).pieces,
        (body quote limit (t ++ cs)).rest, true⟩ := by rw [← hclosed]
    obtain ⟨l, hl, qs, hqs, hbody⟩ := ih (fun d hd => ht d (by simp [hd])) hmore
    exact ⟨l, Nat.le_succ_of_le hl, qs, by simp [hqs, plain], hbody⟩

/-- The text of the pieces and the quote is what the body is read from. -/
theorem body_text {cs rest : Text} {ps : List Piece} (h : body quote limit cs = ⟨ps, rest, true⟩) :
    cs = ps.flatMap Piece.text ++ quote :: rest := by
  have := body_append quote limit cs
  rw [h] at this
  exact this.symm

theorem head?_append_quote {cs rest : Text} : ∀ c ∈ cs.head?, c ∈ (cs ++ quote :: rest).head? := by
  intro c hc
  cases cs with
  | nil => cases hc
  | cons d cs => exact hc

/-- **The pieces of a literal stand for something.** -/
theorem exists_decodes (hquote : quote = '"' ∨ quote = '\'') {cs rest : Text} {ps : List Piece}
    (h : body quote limit cs = ⟨ps, rest, true⟩) : ∃ v, Decodes ps v := by
  induction limit using Nat.strong_induction_on generalizing cs ps with
  | _ limit ih =>
    obtain ⟨limit, rfl⟩ := exists_of_body h
    rcases body_cases h with ⟨-, rfl⟩ | ⟨c, ds, qs, -, rfl, -, hescape, -, hmore⟩ |
      ⟨ds, qs, -, hne, rfl, hmore⟩
    · exact ⟨[], .nil⟩
    · obtain ⟨v, hv⟩ := ih limit (Nat.lt_succ_self _) hmore
      exact ⟨c :: v, .plain hescape hv⟩
    · have htext := body_text hmore
      rcases found_escape hne with ⟨e, he, hends⟩ | ⟨b, hb, hstops⟩
      · obtain ⟨v, hv⟩ := ih limit (Nat.lt_succ_self _) hmore
        rw [htext] at hends
        rw [he]
        exact ⟨_, .escape (hends.mono head?_append_quote) hv⟩
      · rw [hb]
        by_cases hloose : b.IsLoose (qs.flatMap Piece.text)
        · -- The number swallows what the reader of tokens took for plain characters.
          obtain ⟨t, n, more, ht, hn⟩ := hloose
          rw [htext, ht, List.append_assoc] at hmore
          obtain ⟨l, hl, qs, rfl, hbody⟩ :=
            body_skip hquote (fun c hc => hn.sober c (by simp [hc])) hmore
          obtain ⟨v, hv⟩ := ih l (Nat.lt_succ_of_le hl) hbody
          exact ⟨_, .loose hn hv⟩
        · obtain ⟨v, hv⟩ := ih limit (Nat.lt_succ_self _) hmore
          rw [htext] at hstops
          exact ⟨_, .broken (hstops.mono head?_append_quote) hloose hv⟩

/-- **The pieces are the same whatever follows the quote.** -/
theorem body_congr (hquote : quote = '"' ∨ quote = '\'') {cs rest : Text} {ps : List Piece}
    (h : body quote limit cs = ⟨ps, rest, true⟩) (more : Text) {l : Nat}
    (hl : (ps.flatMap Piece.text).length < l) :
    body quote l (ps.flatMap Piece.text ++ quote :: more) = ⟨ps, more, true⟩ := by
  induction limit generalizing cs ps l with
  | zero => simp [body] at h
  | succ limit ih =>
    obtain ⟨l, rfl⟩ := Nat.exists_eq_succ_of_ne_zero (Nat.ne_of_gt (Nat.zero_lt_of_lt hl))
    rcases body_cases h with ⟨-, rfl⟩ | ⟨c, ds, qs, rfl, rfl, hc, hescape, hbreak, hmore⟩ |
      ⟨ds, qs, rfl, hne, rfl, hmore⟩
    · exact body_quote l more
    · simp only [List.flatMap_cons, List.length_append, List.length_singleton] at hl
      rw [List.flatMap_cons, List.singleton_append, List.cons_append, body_plain hc hbreak hescape,
        ih hmore (by omega)]
      rfl
    · have hslash : '\\' ≠ quote := by rcases hquote with rfl | rfl <;> decide
      have hhead :
          ∀ c ∈ (qs.flatMap Piece.text ++ quote :: more).head?, c ∈ (escape ds).2.head? := by
        rw [body_text hmore]
        cases qs.flatMap Piece.text <;> simp
      obtain ⟨t, ht, hread⟩ := escape_congr hne hhead
      simp only [List.flatMap_cons, List.length_append, ht, List.length_cons] at hl
      rw [List.flatMap_cons, ht, List.append_assoc, List.cons_append, body_escape hslash, hread,
        ih hmore (by omega)]
      rfl

/-- The pieces that a literal is cut into where it is read. -/
def pieces (t : Text) : List Piece := (body (t.headD '"') t.length (t.drop 1)).pieces

/-- **A literal that is read is cut into its own pieces**, whatever follows it. -/
theorem lexeme_pieces (hquote : quote = '"' ∨ quote = '\'') {cs t : Text}
    (hkind : (lexeme quote cs).kind = .string) (ht : (lexeme quote cs).text = t) :
    t = quote :: (pieces t).flatMap Piece.text ++ [quote] ∧
      body quote t.length (t.drop 1) = ⟨pieces t, [], true⟩ ∧
      ∀ more, lexeme quote (t.drop 1 ++ more) = ⟨.string, t, more, firstFlaw 1 (pieces t)⟩ := by
  obtain ⟨ps, rest, closed, hbody⟩ :
      ∃ ps rest closed, body quote (cs.length + 1) cs = ⟨ps, rest, closed⟩ :=
    ⟨_, _, _, rfl⟩
  cases closed with
  | false => simp [lexeme, hbody, Lexeme.faulty] at hkind
  | true =>
    obtain rfl : t = quote :: ps.flatMap Piece.text ++ [quote] := by
      simpa [lexeme, hbody] using ht.symm
    have hread (more : Text) {l : Nat} (hl : (ps.flatMap Piece.text).length < l) :
        body quote l (ps.flatMap Piece.text ++ [quote] ++ more) = ⟨ps, more, true⟩ := by
      rw [List.append_assoc]
      exact body_congr hquote hbody more hl
    have hlength :
        (ps.flatMap Piece.text).length < (quote :: ps.flatMap Piece.text ++ [quote]).length := by
      simp only [List.cons_append, List.length_cons, List.length_append]
      omega
    have hown :
        body quote (quote :: ps.flatMap Piece.text ++ [quote]).length
          (ps.flatMap Piece.text ++ [quote]) =
        ⟨ps, [], true⟩ := body_congr hquote hbody [] hlength
    have hpieces : pieces (quote :: ps.flatMap Piece.text ++ [quote]) = ps := by
      rw [pieces, List.cons_append, List.headD_cons, List.drop_one, List.tail_cons,
        ← List.cons_append, hown]
    have hsize : quote.utf8Size = 1 := by rcases hquote with rfl | rfl <;> rfl
    rw [hpieces]
    refine ⟨rfl, hown, fun more => ?_⟩
    have hdrop :
        (quote :: ps.flatMap Piece.text ++ [quote]).drop 1 = ps.flatMap Piece.text ++ [quote] := rfl
    rw [hdrop, lexeme, hread more (by simp only [List.length_append, List.length_cons]; omega),
      if_pos rfl, hsize]

/-- A literal that is read stands for what its pieces stand for, and for nothing else. -/
theorem decodes_iff (hquote : quote = '"' ∨ quote = '\'') {t : Text}
    (hsplit : t = quote :: (pieces t).flatMap Piece.text ++ [quote])
    (hbody : body quote t.length (t.drop 1) = ⟨pieces t, [], true⟩) (v : Text) :
    Decodes (pieces t) v ↔ Literal.stringValue t = v := by
  have hinner : (t.drop 1).dropLast = (pieces t).flatMap Piece.text := by
    conv_lhs => rw [hsplit]
    simp
  have hvalue {w : Text} (hw : Decodes (pieces t) w) : Literal.stringValue t = w := by
    rw [Literal.stringValue, hinner]
    exact hw.decode_eq (Nat.le_refl _)
  refine ⟨hvalue, ?_⟩
  rintro rfl
  obtain ⟨w, hw⟩ := exists_decodes hquote hbody
  rw [hvalue hw]
  exact hw

/-! ## Every literal -/

/-- A string that is read as code is a literal between quotes. -/
theorem exists_lexeme [Alphabet] {q : Place} {mode : Mode} (hcode : mode.isCode = true)
    (hkind : (q.next mode).1.kind = .string) :
    ∃ quote cs, (quote = '"' ∨ quote = '\'') ∧ (lexeme quote cs).kind = .string ∧
      (lexeme quote cs).text = (q.next mode).1.text := by
  have hstring : (Lexeme.read mode (mode.leading q.rest).rest).kind = .string := hkind
  rcases Lexeme.read_literal hcode (.inl hstring) with ⟨quote, cs, -, hquote, hread⟩ |
    ⟨-, cs, -, hread⟩
  · exact ⟨quote, cs, hquote, by rw [← hread, hstring], by rw [← hread]; rfl⟩
  · rw [hread, Pattern.lexeme] at hstring
    split at hstring <;> cases hstring

/-- **Every literal of a tree stands for its pieces.**  Whatever follows it, its text is read as
these pieces between two quotes, with the flaw at the first that is not valid.  What it denotes is
what they stand for one after the other: a broken escape stands for itself, as it is written, unless
a loose number begins there. -/
theorem literal_decodes [Alphabet] {limits : Limits} {text : Text} {p : Parse}
    (h : parseWithin limits text = .ok p)
    {n : Tree.Node} (hn : n ∈ p.tree.root.descendants) (hkind : n.kind = .stringLiteral) :
    ∃ quote t, (quote = '"' ∨ quote = '\'') ∧ p.tree.textOf n = t ∧
      t = quote :: (pieces t).flatMap Piece.text ++ [quote] ∧
      (∀ more, lexeme quote (t.drop 1 ++ more) = ⟨.string, t, more, firstFlaw 1 (pieces t)⟩) ∧
      ∀ v, Question.denoted.ask p.tree n = .text v ↔ Decodes (pieces t) v := by
  obtain ⟨q, mode, hcode, hstring, htext⟩ :=
    quoted_of_parseWithin h hn (k := .string) (by rw [hkind]; rfl)
  obtain ⟨quote, cs, hquote, hliteral, hsame⟩ := exists_lexeme hcode hstring
  obtain ⟨hsplit, hbody, hmore⟩ := lexeme_pieces hquote hliteral (hsame.trans htext.symm)
  refine ⟨quote, _, hquote, rfl, hsplit, hmore, fun v => ?_⟩
  rw [decodes_iff hquote hsplit hbody, Question.ask, Answer.text.injEq]

/-- An escape that lacks a digit: one broken piece, which is reported and stands for itself. -/
theorem literal_decodes_short : ∃ p, parseWithin {} "'\\x4';".toList = .ok p ∧
    ∃ n ∈ p.tree.root.descendants, n.kind = .stringLiteral ∧ p.tree.textOf n = "'\\x4'".toList ∧
      pieces "'\\x4'".toList = [⟨"\\x4".toList, false⟩] ∧
      (∀ more, lexeme '\'' ("\\x4'".toList ++ more) =
        ⟨.string, "'\\x4'".toList, more, some ⟨.invalidEscape, ⟨1, 4⟩⟩⟩) ∧
      Question.denoted.ask p.tree n = .text "\\x4".toList ∧
      Decodes [⟨"\\x4".toList, false⟩] "\\x4".toList := by
  obtain ⟨p, hp, htest⟩ := exists_parse_of_test {} "'\\x4';".toList
    (fun p => p.tree.root.descendants.any fun n =>
      n.kind == .stringLiteral && p.tree.textOf n == "'\\x4'".toList) (by decide +kernel)
  simp only [List.any_eq_true, Bool.and_eq_true, beq_iff_eq] at htest
  obtain ⟨n, hn, hkind, htext⟩ := htest
  obtain ⟨quote, t, -, ht, hsplit, hread, hdecodes⟩ := literal_decodes hp hn hkind
  obtain rfl : t = "'\\x4'".toList := ht.symm.trans htext
  have hpieces : pieces "'\\x4'".toList = [⟨"\\x4".toList, false⟩] := by decide
  rw [hpieces] at hsplit hread hdecodes
  obtain rfl : quote = '\'' := (List.cons.inj hsplit).1.symm
  have hanswer : Question.denoted.ask p.tree n = .text "\\x4".toList := by
    rw [Question.ask, htext]
    rfl
  exact ⟨p, hp, n, hn, hkind, htext, hpieces, hread, hanswer, (hdecodes _).1 hanswer⟩

/-- An escape that is reported, and with the sign behind it denotes a character all the same. -/
theorem sign_denoted : ∃ p, parseWithin {} "'\\x+1';".toList = .ok p ∧
    ∃ n ∈ p.tree.root.descendants, n.kind = .stringLiteral ∧ p.tree.textOf n = "'\\x+1'".toList ∧
      lexeme '\'' "\\x+1'".toList = ⟨.string, "'\\x+1'".toList, [], some ⟨.invalidEscape, ⟨1, 3⟩⟩⟩ ∧
      Question.denoted.ask p.tree n = .text ['\x01'] := by
  obtain ⟨p, hp, -⟩ := exists_parseWithin (Limits.endless_maxDepth 256) "'\\x+1';".toList
  have hfound :
      ((parseWithin {} "'\\x+1';".toList).toOption.any fun p => p.tree.root.descendants.any fun n =>
      n.kind == .stringLiteral && p.tree.textOf n == "'\\x+1'".toList) = true := by
    decide +kernel
  rw [hp] at hfound
  obtain ⟨n, hn, htest⟩ := List.any_eq_true.1 hfound
  obtain ⟨hkind, htext⟩ := Bool.and_eq_true_iff.1 htest
  refine ⟨p, hp, n, hn, eq_of_beq hkind, eq_of_beq htext, by decide, ?_⟩
  rw [Question.ask, eq_of_beq htext]
  rfl

end ActionScript.Quotation
