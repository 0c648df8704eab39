import ActionScript.Proofs.Lexing.Operators
import ActionScript.Proofs.Printing.Syntax
import ActionScript.Proofs.Setting

/-!
# Reading what was printed

A printed token is followed by white space, or by a comment or the sign that closes what is around
the whole.  All of these end it, so it is read again as it was printed, in the mode that is used for
such a token.

* `Text.Solid`, `Text.Parted`, `Trivia.Ends`: what may come behind a printed token.
* `Mode.Reads`: a token is read, with its kind, its text and the trivia behind it.
* `Mode.reads_sign`, `Mode.reads_word`, `Mode.reads_name`, `Mode.reads_numeral`: **printed tokens
  are read again**.
-/

set_option autoImplicit false

namespace ActionScript

/-! ## Characters -/

/-- A character of a class is none of those outside of it. -/
theorem ne_of_any_eq_false {p : Char → Bool} {c : Char} (hc : p c = true) {ds : List Char}
    (hds : ds.any p = false) : ∀ d ∈ ds, c ≠ d := by
  rintro d hd rfl
  exact List.any_eq_false.1 hds c hd hc

/-- Which characters below 128 are outside of a class is read off what the class is there. -/
theorem any_eq_false_ascii {p q : Char → Bool} (hpq : ∀ {c : Char}, c.toNat < 128 → p c = q c)
    {ds : List Char} (hds : (ds.all fun d => d.toNat < 128 && !q d) = true) : ds.any p = false := by
  refine List.any_eq_false.2 fun d hd => ?_
  have hq := List.all_eq_true.1 hds d hd
  rw [Bool.and_eq_true, decide_eq_true_eq, Bool.not_eq_true'] at hq
  rw [hpq hq.1, hq.2]
  exact Bool.false_ne_true

/-- What holds of none of some characters does not hold of one of them. -/
theorem eq_false_of_mem_codes {codes : List Nat} {p : Char → Bool}
    (hp : (codes.all fun n => !p (Char.ofNat n)) = true) {c : Char} (h : c.toNat ∈ codes) :
    p c = false := by
  have hc := List.all_eq_true.1 hp c.toNat h
  rwa [Char.ofNat_toNat, Bool.not_eq_true'] at hc

/-- What holds of no white space holds of no blank. -/
theorem eq_false_of_isBlank {p : Char → Bool}
    (hp : (spaceCodes.all fun n => !p (Char.ofNat n)) = true) {c : Char} (h : isBlank c = true) :
    p c = false :=
  eq_false_of_mem_codes hp (mem_spaceCodes_of_isBlank h)

/-- The code points of what ends a printed token: white space, the sign of a comment, and signs that
close something. -/
def endingCodes : List Nat := spaceCodes ++ ['/', ')', '}', ';'].map Char.toNat

theorem mem_endingCodes_of_isBlank {c : Char} (h : isBlank c = true) : c.toNat ∈ endingCodes :=
  List.mem_append_left _ (mem_spaceCodes_of_isBlank h)

/-- What ends a printed token is no letter. -/
theorem isLetterOrMark_eq_false_of_ending [Alphabet] {c : Char} (h : c.toNat ∈ endingCodes) :
    isLetterOrMark c = false := by
  rcases List.mem_append.1 h with hspace | hsign
  · have hall : (spaceCodes.all fun n => isBlank (Char.ofNat n) || isLineBreak (Char.ofNat n)) =
        true := by decide
    have hc := List.all_eq_true.1 hall c.toNat hspace
    rw [Char.ofNat_toNat, Bool.or_eq_true] at hc
    exact Alphabet.isLetterOrMark_space hc
  · have hlt : c.toNat < 128 := by
      have hall : (['/', ')', '}', ';'].map Char.toNat).all (· < 128) = true := by decide
      exact of_decide_eq_true (List.all_eq_true.1 hall c.toNat hsign)
    rw [Alphabet.isLetterOrMark_ascii hlt]
    exact eq_false_of_mem_codes (p := fun c => c.isAlphanum || c == '_') (by decide) hsign

/-- It opens no name. -/
theorem isIdentStart_eq_false_of_ending [Alphabet] {c : Char} (h : c.toNat ∈ endingCodes) :
    isIdentStart c = false := by
  rw [isIdentStart, isLetter_eq_false (isLetterOrMark_eq_false_of_ending h), Bool.false_or]
  exact eq_false_of_mem_codes (p := fun c => c == '_' || isNameSign c) (by decide) h

/-- Nor does a name go on with it. -/
theorem isIdentContinue_eq_false_of_ending [Alphabet] {c : Char} (h : c.toNat ∈ endingCodes) :
    isIdentContinue c = false := by
  rw [isIdentContinue, isLetterOrMark_eq_false_of_ending h, Bool.false_or]
  exact eq_false_of_mem_codes (by decide) h

theorem isDigit_eq_false_of_isIdentStart [Alphabet] {c : Char} (h : isIdentStart c = true) :
    c.isDigit = false := by
  refine Bool.eq_false_iff.2 fun hdigit => ?_
  have hlt : c.toNat < 128 := by
    rw [Char.isDigit, Bool.and_eq_true, decide_eq_true_eq, decide_eq_true_eq] at hdigit
    exact Nat.lt_of_le_of_lt (UInt32.le_iff_toNat_le.1 hdigit.2) (by decide)
  have hall : ∀ n < 128, (Char.ofNat n).isDigit = true →
      ((Char.ofNat n).isAlpha || Char.ofNat n == '_' || isNameSign (Char.ofNat n)) = false := by
    decide
  have hc := hall c.toNat hlt
  rw [Char.ofNat_toNat, ← isIdentStart_ascii hlt, h] at hc
  cases hc hdigit

/-- No other token of code begins like a name. -/
theorem Code.family?_of_isIdentStart [Alphabet] {c : Char} (h : isIdentStart c = true) :
    family? c = none := by
  unfold family?
  split <;> first | rfl | (rw [isIdentStart_ascii (by decide)] at h; exact absurd h (by decide))

/-! ## Places between tokens -/

/-- Neither trivia nor the end of a line begins here. -/
def Text.Solid (cs : Text) : Prop := Trivia.leading? true cs = none

/-- Neither blanks nor a comment begin here; a line may end. -/
def Text.Settled (cs : Text) : Prop := Trivia.comment? cs = none ∧ Trivia.blanks? cs = none

/-- What ends a printed token is none of the other characters. -/
theorem ne_of_ending {c : Char} (h : c.toNat ∈ endingCodes) {ds : List Char}
    (hds : (ds.all fun d => !endingCodes.contains d.toNat) = true) : ∀ d ∈ ds, c ≠ d := by
  rintro d hd rfl
  have hnot := List.all_eq_true.1 hds c hd
  simp [h] at hnot

/-- Something begins here that ends a printed token. -/
def Text.Parted (cs : Text) : Prop := ∃ c rest, cs = c :: rest ∧ c.toNat ∈ endingCodes

namespace Trivia

/-- What may come behind a printed token: `tail` belongs to it, and then comes `more`. -/
structure Ends (tail : List Trivia) (more : Text) : Prop where
  parted : (flatten tail ++ more).Parted
  trailingRun : trailingRun (flatten tail ++ more) = ⟨tail, more, none⟩

/-- A line break, and the space behind it. -/
def newLine : List Trivia := ⟨.newline, ['\n']⟩ :: gap

/-- What may stand in front of a printed token: nothing, or a line break. -/
def Leads (lead : List Trivia) : Prop := lead = [] ∨ lead = newLine

variable {tail : List Trivia} {more : Text}

theorem solid_iff :
    more.Solid ↔ lineBreak? more = none ∧ comment? more = none ∧ blanks? more = none := by
  unfold Text.Solid leading?
  cases lineBreak? more <;> cases comment? more <;> cases blanks? more <;> simp

theorem settled_of_solid (h : more.Solid) : more.Settled := (solid_iff.1 h).2

theorem takeWhile_of_settled (h : more.Settled) : more.takeWhile isBlank = [] := by
  obtain ⟨-, hblanks⟩ := h
  unfold blanks? at hblanks
  split at hblanks
  · assumption
  · cases hblanks

theorem dropWhile_of_settled (h : more.Settled) : more.dropWhile isBlank = more := by
  have happend := List.takeWhile_append_dropWhile (p := isBlank) (l := more)
  rwa [takeWhile_of_settled h, List.nil_append] at happend

theorem trailing?_of_settled (h : more.Settled) : trailing? more = none := by
  obtain ⟨hcomment, hblanks⟩ := h
  simp only [trailing?, hcomment, hblanks]

/-- A character that neither is blank nor begins a comment is solid. -/
theorem solid_cons {c : Char} (hblank : isBlank c = false) (hbreak : isLineBreak c = false)
    (hslash : c ≠ '/') (rest : Text) : Text.Solid (c :: rest) := by
  refine solid_iff.2 ⟨?_, ?_, ?_⟩
  · have hreturn : c ≠ '\r' := by
      rintro rfl
      cases hbreak
    unfold lineBreak?
    split
    · rename_i heq
      exact absurd (List.cons.inj heq).1 hreturn
    · rename_i d ds _ heq
      cases heq
      simp [hbreak]
    · rfl
  · unfold comment?
    split
    · rename_i heq
      exact absurd (List.cons.inj heq).1 hslash
    · rename_i heq
      exact absurd (List.cons.inj heq).1 hslash
    · rfl
  · simp [blanks?, hblank]

theorem blanks?_space (h : more.Settled) :
    blanks? (' ' :: more) = some ⟨⟨.whitespace, [' ']⟩, more, true⟩ := by
  have hblank : isBlank ' ' = true := by decide
  simp [blanks?, hblank, takeWhile_of_settled h, dropWhile_of_settled h]

/-- A line break and a space are read in front of what is solid, and nothing else. -/
theorem leadingRun_newLine (h : more.Solid) :
    leadingRun true (flatten newLine ++ more) = ⟨newLine, more, none⟩ := by
  have hspace : leading? true (' ' :: more) = some ⟨⟨.whitespace, [' ']⟩, more, true⟩ := by
    rw [← blanks?_space (settled_of_solid h)]
    rfl
  have hbreak : leading? true ('\n' :: ' ' :: more) =
      some ⟨⟨.newline, ['\n']⟩, ' ' :: more, true⟩ := rfl
  change leadingRun true ('\n' :: ' ' :: more) = _
  simp only [leadingRun, List.length_cons, run, hbreak, hspace, run_eq_nil h]
  rfl

/-- **A space ends a printed token**, if neither blanks nor a comment follow. -/
theorem ends_gap_of_settled (h : more.Settled) : Ends gap more := by
  have hfirst : trailing? (' ' :: more) = some ⟨⟨.whitespace, [' ']⟩, more, true⟩ := by
    rw [← blanks?_space h]
    rfl
  refine ⟨⟨' ', more, rfl, by decide⟩, ?_⟩
  change Trivia.trailingRun (' ' :: more) = _
  simp only [Trivia.trailingRun, run, List.length_cons, hfirst, run_eq_nil (trailing?_of_settled h)]
  rfl

theorem ends_gap (h : more.Solid) : Ends gap more := ends_gap_of_settled (settled_of_solid h)

/-- So does a sign that closes something. -/
theorem ends_nil {c : Char} {rest : Text} (hc : c ∈ [')', ';']) : Ends [] (c :: rest) := by
  have hsolid : Text.Solid (c :: rest) := by
    simp only [List.mem_cons, List.not_mem_nil, or_false] at hc
    rcases hc with rfl | rfl <;> exact solid_cons (by decide) (by decide) (by decide) rest
  refine ⟨⟨c, rest, rfl, ?_⟩, run_eq_nil (trailing?_of_settled (settled_of_solid hsolid)) _ _⟩
  simp only [List.mem_cons, List.not_mem_nil, or_false] at hc
  rcases hc with rfl | rfl <;> decide

end Trivia

/-! ## Signs -/

/-- Is the kind a sign that is printed, and read in the mode, whatever ends it?  A slash is not:
with another one behind it, it begins a comment. -/
def Mode.hasSign : Mode → Kind → Bool
  | .operator, k => (k.precedence?.isSome && !k.isKeyword && k != .slash) || k.isUpdateOperator ||
    k ∈ [Kind.lParen, .rParen, .lBrack, .rBrack, .lCurly, .rCurly, .colon, .dot, .bang, .tilde]
  | .exprStart, k => (k.isUnaryOperator && !k.isKeyword) || k.isUpdateOperator ||
    k ∈ [Kind.lParen, .lBrack, .lCurly]
  | _, _ => false

/-- What the tables say of a kind that is written as a sign: of assignments, of steps up and down,
and of the first character that is printed. -/
theorem Kind.sign_facts (k : Kind) :
    (k.isAssignment = true →
      k.precedence? = some .assignment ∧ Mode.operator.hasSign k = true ∧ k ≠ .inKw) ∧
    (k.isUpdateOperator = true → (k = .plus2 ∨ k = .minus2) ∧ Mode.operator.hasSign k = true) ∧
    ∀ mode ∈ [Mode.operator, .exprStart], mode.hasSign k = true →
      k.text ≠ [] ∧ k.text.head?.any isBlank = false ∧ k.text.head?.any isLineBreak = false ∧
        (k.text.head? = some '/' → k = .slashEq) := by
  revert k
  decide +kernel

/-- They say of a sign that it is an operator, and that neither a number begins with it nor a
pattern. -/
theorem Kind.operator_facts (k : Kind) :
    ∀ mode ∈ [Mode.operator, .exprStart], mode.hasSign k = true →
    k ∈ operators ∧ k.sign.tail.head?.any (fun c => c.isDigit || c == 'I') = false ∧
      (mode = .exprStart → k.sign.head?.any (fun c => c == '/' || c == '<') = false) := by
  revert k
  decide +kernel

/-- What ends a printed token goes on with none of the signs. -/
theorem Kind.not_mem_tail_of_ending {c : Char} (hc : c.toNat ∈ endingCodes) {k : Kind}
    (hk : k ∈ operators) : c ∉ k.sign.tail := by
  have hall :
      (operators.all fun k => k.sign.tail.all fun d => !endingCodes.contains d.toNat) = true := by
    decide +kernel
  intro hmem
  have hd := List.all_eq_true.1 (List.all_eq_true.1 hall k hk) c hmem
  simp [hc] at hd

theorem Kind.assignment_facts {k : Kind} (h : k.isAssignment = true) :
    k.precedence? = some .assignment ∧ Mode.operator.hasSign k = true ∧ k ≠ .inKw :=
  k.sign_facts.1 h

theorem Kind.update_facts {k : Kind} (h : k.isUpdateOperator = true) :
    (k = .plus2 ∨ k = .minus2) ∧ Mode.operator.hasSign k = true :=
  k.sign_facts.2.1 h

/-- **A sign is read up to what ends it**: no longer one begins like that. -/
theorem Code.operator_ending {k : Kind} (hk : k ∈ Kind.operators) {c d : Char} {cs rest : Text}
    (htext : k.sign = c :: cs) {f : Family} (hf : family? c = some f) (hd : d.toNat ∈ endingCodes) :
    operator f c (cs ++ d :: rest) = ⟨k, k.sign, d :: rest, none⟩ := by
  have hsource : k.sign ++ d :: rest = c :: (cs ++ d :: rest) := by rw [htext]; rfl
  obtain ⟨⟨hoperator, hopens, hlongest⟩, hsign⟩ := operator_isLongest hf (cs ++ d :: rest)
  have happend := operator_append f c (cs ++ d :: rest)
  have hflaw : (operator f c (cs ++ d :: rest)).flaw = none := by
    unfold operator
    split <;> rfl
  generalize operator f c (cs ++ d :: rest) = l at hoperator hopens hlongest hsign happend hflaw
  have hkind : k = l.kind := by
    refine (hlongest k hk ⟨d :: rest, hsource⟩).resolve_right fun hlt => ?_
    -- a longer sign holds what ends this one
    rw [← hsource] at hopens
    have hprefix : k.sign ++ [d] <+: l.kind.sign :=
      List.prefix_of_prefix_length_le ⟨rest, by simp⟩ hopens (by
        rw [List.length_append, List.length_singleton]
        exact hlt)
    obtain ⟨more, hmore⟩ := hprefix
    refine Kind.not_mem_tail_of_ending hd hoperator ?_
    rw [← hmore, htext]
    simp
  obtain ⟨kind, text, rest', flaw⟩ := l
  obtain rfl : k = kind := hkind
  obtain rfl : text = k.sign := hsign
  obtain rfl : flaw = none := hflaw
  rw [← hsource] at happend
  obtain rfl := List.append_cancel_left happend
  rfl

theorem Code.lexeme_sign [Alphabet] {mode : Mode} {k : Kind} (hk : mode.hasSign k = true)
    {after : Text}
    (h : after.Parted) : lexeme mode (k.text ++ after) = ⟨k, k.text, after, none⟩ := by
  obtain ⟨d, rest, rfl, hd⟩ := h
  have hmode : mode ∈ [Mode.operator, .exprStart] := by
    cases mode <;> first | exact absurd hk Bool.false_ne_true | decide
  obtain ⟨hne, -⟩ := k.sign_facts.2.2 mode hmode hk
  obtain ⟨hoperator, hbehind, hbefore⟩ := k.operator_facts mode hmode hk
  obtain ⟨c, cs, htext⟩ : ∃ c cs, k.sign = c :: cs := List.exists_cons_of_ne_nil hne
  have hsign : isSign c = true :=
    List.any_eq_true.2 ⟨k, hoperator, List.contains_iff_mem.2 (htext ▸ List.mem_cons_self)⟩
  obtain ⟨hsome, hdigit, hdouble, hsingle⟩ := isSign_cases hsign
  obtain ⟨f, hf⟩ := Option.isSome_iff_exists.1 hsome
  obtain ⟨e, more, hnext, he⟩ :
      ∃ e more, cs ++ d :: rest = e :: more ∧ (e.isDigit || e == 'I') = false := by
    rw [htext] at hbehind
    cases cs with
    | nil =>
      exact ⟨d, rest, rfl, eq_false_of_mem_codes (p := fun e => e.isDigit || e == 'I')
        (by decide) hd⟩
    | cons e cs => exact ⟨e, cs ++ d :: rest, rfl, hbehind⟩
  rw [Bool.or_eq_false_iff, beq_eq_false_iff_ne] at he
  have hpoint : Number.startsWithDigit (cs ++ d :: rest) = false := by
    rw [hnext]
    exact he.1
  have hinfinity : atInfinity (cs ++ d :: rest) = false := by
    rw [hnext]
    simp [atInfinity, infinityWord, List.isPrefixOf, he.2.symm]
  have hlexeme : lexeme mode (c :: (cs ++ d :: rest)) = operator f c (cs ++ d :: rest) := by
    simp only [List.mem_cons, List.not_mem_nil, or_false] at hmode
    rcases hmode with rfl | rfl
    · simp [lexeme, hdigit, hpoint, hdouble, hsingle, familyIn?, hf]
    · have hslash := hbefore rfl
      rw [htext] at hslash
      simp only [List.head?_cons, Option.any_some, Bool.or_eq_false_iff,
        beq_eq_false_iff_ne] at hslash
      simp [lexeme, hdigit, hpoint, hdouble, hsingle, familyIn?, hf, hslash, hinfinity]
  have hsource : k.text ++ d :: rest = c :: (cs ++ d :: rest) := by
    rw [← List.cons_append, ← htext]
    rfl
  rw [hsource, hlexeme, operator_ending hoperator htext hf hd]
  rfl

theorem Kind.solid_text {mode : Mode} {k : Kind} (hk : mode.hasSign k = true) (after : Text) :
    Text.Solid (k.text ++ after) := by
  have hmode : mode ∈ [Mode.operator, .exprStart] := by
    cases mode <;> first | exact absurd hk Bool.false_ne_true | decide
  obtain ⟨hne, hblank, hbreak, hslash⟩ := k.sign_facts.2.2 mode hmode hk
  obtain ⟨d, ds, htext⟩ := List.exists_cons_of_ne_nil hne
  rw [htext, List.head?_cons] at hblank hbreak hslash
  by_cases hd : d = '/'
  · rw [hslash (congrArg some hd)]
    rfl
  · rw [htext]
    exact Trivia.solid_cons hblank hbreak hd _

/-! ## Words -/

/-- A word that is read as one: it is no number. -/
def Text.IsWord [Alphabet] (t : Text) : Prop :=
  ∃ c cs, t = c :: cs ∧ isIdentStart c = true ∧ cs.all isIdentContinue = true ∧
    t ≠ Code.nanWord ∧ t ≠ Code.infinityWord

theorem Name.isWord_text [Alphabet] (n : Name) : n.text.IsWord := by
  obtain ⟨c, cs, htext, hstart, hall⟩ := n.isWord
  exact ⟨c, cs, htext, hstart, hall, n.isFree.2⟩

/-- Is the kind an operator that is written as a word? -/
def Kind.isOperatorWord (k : Kind) : Bool :=
  k.isKeyword && (k.isUnaryOperator || k.precedence?.isSome)

theorem Kind.isKeyword_of_isOperatorWord {k : Kind} (hk : k.isOperatorWord = true) :
    k.isKeyword = true := by
  rw [isOperatorWord, Bool.and_eq_true] at hk
  exact hk.1

/-- **Keywords are words.** -/
theorem Kind.isWord_text [Alphabet] {k : Kind} (hk : k.isKeyword = true) : k.text.IsWord := by
  have hwords : ∀ k : Kind, k.isKeyword = true → k.text ≠ [] ∧
      (k.text.all fun c => c.toNat < 128 && c.isAlpha) = true ∧ k.text ≠ Code.nanWord ∧
      k.text ≠ Code.infinityWord := by
    decide +kernel
  obtain ⟨hne, hall, hfree⟩ := hwords k hk
  have hletter : ∀ c ∈ k.text, isIdentStart c = true ∧ isIdentContinue c = true := by
    intro c hc
    have hascii := List.all_eq_true.1 hall c hc
    rw [Bool.and_eq_true, decide_eq_true_eq] at hascii
    rw [isIdentStart_ascii hascii.1, isIdentContinue_ascii hascii.1, Char.isAlphanum, hascii.2]
    exact ⟨rfl, rfl⟩
  obtain ⟨c, cs, htext⟩ := List.exists_cons_of_ne_nil hne
  rw [htext] at hletter hfree
  exact ⟨c, cs, htext, (hletter c List.mem_cons_self).1,
    List.all_eq_true.2 fun d hd => (hletter d (List.mem_cons_of_mem c hd)).2, by rwa [htext]⟩

/-- A run of characters of a class ends where no character of the class comes next. -/
theorem Text.Parted.longest {p : Char → Bool} {cs after : Text} (h : after.Parted)
    (hcs : cs.all p = true) (hp : ∀ d : Char, d.toNat ∈ endingCodes → p d = false) :
    (cs ++ after).takeWhile p = cs ∧ (cs ++ after).dropWhile p = after := by
  obtain ⟨c, rest, rfl, hc⟩ := h
  have hall : ∀ d ∈ cs, p d = true := List.all_eq_true.1 hcs
  have hnot : p c = false := hp c hc
  constructor
  · rw [List.takeWhile_append_of_pos hall, List.takeWhile_cons, hnot]
    simp
  · rw [List.dropWhile_append_of_pos hall, List.dropWhile_cons, hnot]
    simp

theorem Code.lexeme_word [Alphabet] {t : Text} (ht : t.IsWord) {after : Text} (h : after.Parted)
    (mode : Mode) : lexeme mode (t ++ after) = ⟨.name, t, after, none⟩ := by
  obtain ⟨c, cs, rfl, hstart, hall, hnan, hinf⟩ := ht
  have hne : ∀ d ∈ ['.', '"', '\'', '/', '-', '<', '>'], c ≠ d :=
    ne_of_any_eq_false hstart (any_eq_false_ascii isIdentStart_ascii (by decide))
  obtain ⟨htake, hdrop⟩ := h.longest hall fun _ => isIdentContinue_eq_false_of_ending
  have hfamily : familyIn? mode c = none := by
    simp [familyIn?, hne, family?_of_isIdentStart hstart]
  rw [List.cons_append, lexeme]
  simp [isDigit_eq_false_of_isIdentStart hstart, hne, hfamily, hstart, word, htake, hdrop, hnan,
    hinf]

theorem Text.IsWord.solid [Alphabet] {t : Text} (ht : t.IsWord) (after : Text) :
    Text.Solid (t ++ after) := by
  obtain ⟨c, cs, rfl, hstart, -⟩ := ht
  have hending : c.toNat ∉ endingCodes := fun h => by
    rw [isIdentStart_eq_false_of_ending h] at hstart
    cases hstart
  have hne : ∀ d ∈ ['\n', '\r', '\u2028', '\u2029', '/'], c ≠ d :=
    ne_of_any_eq_false (p := fun d => d.toNat ∉ endingCodes) (by simpa using hending) (by decide)
  refine Trivia.solid_cons ?_ ?_ (hne '/' (by decide)) _
  · exact Bool.eq_false_iff.2 fun hblank => hending (mem_endingCodes_of_isBlank hblank)
  · simp [isLineBreak, hne]

/-! ## Numbers -/

theorem isDigit_cases {c : Char} (h : c.isDigit = true) : 48 ≤ c.toNat ∧ c.toNat ≤ 57 := by
  rw [Char.isDigit, Bool.and_eq_true, decide_eq_true_eq, decide_eq_true_eq] at h
  exact ⟨UInt32.le_iff_toNat_le.1 h.1, UInt32.le_iff_toNat_le.1 h.2⟩

theorem Number.decimal_append_parted {ds after : Text} (hds : ds.all Char.isDigit = true)
    (h : after.Parted) : decimal (ds ++ after) = (ds, after) := by
  have hall : ds.all (fun c => c.isDigit || c == '_') = true :=
    List.all_eq_true.2 fun c hc => by simp [List.all_eq_true.1 hds c hc]
  obtain ⟨htake, hdrop⟩ := h.longest hall fun _ hd =>
    eq_false_of_mem_codes (p := fun c => c.isDigit || c == '_') (by decide) hd
  obtain ⟨c, rest, rfl, hc⟩ := h
  have hne : ∀ d ∈ ['.', 'e', 'E', 'n'], c ≠ d := ne_of_ending hc (by decide)
  have hdigits : digits (ds ++ c :: rest) = (ds, c :: rest) := Prod.ext htake hdrop
  have hfraction : fraction (c :: rest) = ([], c :: rest) :=
    fraction_of_ne (hne '.' (by decide)) rest
  have hexponent : exponent (c :: rest) = ([], c :: rest) := by simp [exponent, hne]
  have hbig : bigMark (c :: rest) = ([], c :: rest) := bigMark_of_ne (hne 'n' (by decide)) rest
  simp [decimal, hdigits, hfraction, hexponent, andThen, hbig]

/-- A leading zero changes how a number is read only if a letter follows it. -/
theorem Number.scan_zero_of_ne {c : Char} (h : ∀ d ∈ ['x', 'X', 'b', 'B', 'o', 'O'], c ≠ d)
    (cs : Text) : scan ('0' :: c :: cs) = decimal ('0' :: c :: cs) := by
  simp [scan, h]

/-- What begins neither with a point nor with a zero is decimal. -/
theorem Number.scan_of_ne {c : Char} (hpoint : c ≠ '.') (hzero : c ≠ '0') (cs : Text) :
    scan (c :: cs) = decimal (c :: cs) := by
  unfold scan
  split <;> simp_all

theorem Number.scan_zero_cons {c : Char} (cs : Text)
    (hc : c.isDigit = true ∨ c.toNat ∈ endingCodes) :
    scan ('0' :: c :: cs) = decimal ('0' :: c :: cs) := by
  rcases hc with hdigit | hending
  · exact scan_zero_of_ne (ne_of_any_eq_false hdigit (by decide)) cs
  · exact scan_zero_of_ne (ne_of_ending hending (by decide)) cs

theorem Number.scan_append_parted (n : Numeral) {after : Text} (h : after.Parted) :
    scan (n.text ++ after) = (n.text, after) := by
  rw [← decimal_append_parted n.isDecimal h]
  have hall := List.all_eq_true.1 n.isDecimal
  cases hn : n.text with
  | nil => exact absurd hn n.nonempty
  | cons d ds =>
    rw [hn] at hall
    by_cases hzero : d = '0'
    · subst hzero
      cases ds with
      | nil =>
        obtain ⟨c, rest, rfl, hc⟩ := h
        exact scan_zero_cons rest (.inr hc)
      | cons c cs => exact scan_zero_cons (cs ++ after) (.inl (hall c (by simp)))
    · have hdot : d ≠ '.' := by
        rintro rfl
        exact absurd (hall '.' List.mem_cons_self) (by decide)
      exact scan_of_ne hdot hzero (ds ++ after)

theorem Code.lexeme_numeral [Alphabet] (n : Numeral) {after : Text} (h : after.Parted)
    (mode : Mode) :
    lexeme mode (n.text ++ after) = ⟨.number, n.text, after, none⟩ := by
  have hscan := Number.scan_append_parted n h
  cases hn : n.text with
  | nil => exact absurd hn n.nonempty
  | cons d ds =>
    have hdigit := n.isDecimal
    rw [hn, List.all_cons, Bool.and_eq_true] at hdigit
    rw [hn] at hscan
    rw [List.cons_append] at hscan ⊢
    simp [lexeme, hdigit.1, Number.lexeme, hscan]

theorem Numeral.solid (n : Numeral) (after : Text) : Text.Solid (n.text ++ after) := by
  have hblank : ∀ k < 58, 48 ≤ k → within whiteSpaceBoundaries k = false := by decide
  cases hn : n.text with
  | nil => exact absurd hn n.nonempty
  | cons d ds =>
    have hdigit := n.isDecimal
    rw [hn, List.all_cons, Bool.and_eq_true] at hdigit
    obtain ⟨hlow, hhigh⟩ := isDigit_cases hdigit.1
    have hsigns : ∀ c ∈ ['\n', '\r', '\u2028', '\u2029', '/', '\ufeff'], d ≠ c :=
      ne_of_any_eq_false hdigit.1 (by decide)
    refine Trivia.solid_cons ?_ ?_ (hsigns '/' (by decide)) _
    · simp [isBlank, hblank d.toNat (by omega) hlow, hsigns]
    · simp [isLineBreak, hsigns]

/-! ## Readings -/

/-- What is left of a text begins with a token that is read in the mode, with `lead` in front of it,
its trivia behind it, and then `more`. -/
def Mode.ReadsBehind [Alphabet] (mode : Mode) (lead : List Trivia) (rest : Text) (kind : Kind)
    (text : Text)
    (tail : List Trivia) (more : Text) : Prop :=
  ∀ p : Place, p.rest = rest →
    (p.next mode).1 = ⟨kind, p.offset, lead, text, tail, none⟩ ∧ (p.next mode).2.rest = more

/-- The same where nothing stands in front of the token. -/
abbrev Mode.Reads [Alphabet] (mode : Mode) (rest : Text) (kind : Kind) (text : Text)
    (tail : List Trivia)
    (more : Text) : Prop :=
  mode.ReadsBehind [] rest kind text tail more

section
variable {mode : Mode} {tail : List Trivia} {more : Text}

theorem Mode.leading_of_isCode (hcode : mode.isCode = true) (cs : Text) :
    mode.leading cs = Trivia.leadingRun true cs := by
  cases mode <;> first | rfl | cases hcode

theorem Mode.leading_of_solid (hcode : mode.isCode = true) {cs : Text} (h : cs.Solid) :
    mode.leading cs = ⟨[], cs, none⟩ := by
  rw [leading_of_isCode hcode, Trivia.leadingRun, Trivia.run_eq_nil h]

/-- A token is read if it is one of code, nothing stands in front of it, and what stands behind it
is its trivia. -/
theorem Mode.reads_of_lexeme [Alphabet] {rest : Text} {kind : Kind} {text : Text}
    (hcode : mode.isCode = true)
    (hkind : kind ≠ .eof) (hsolid : rest.Solid)
    (hlexeme : Code.lexeme mode rest = ⟨kind, text, Trivia.flatten tail ++ more, none⟩)
    (htail : Trivia.trailingRun (Trivia.flatten tail ++ more) = ⟨tail, more, none⟩) :
    mode.Reads rest kind text tail more := by
  rintro p rfl
  have hleading := leading_of_solid hcode hsolid
  have hread : Lexeme.read mode p.rest = ⟨kind, text, Trivia.flatten tail ++ more, none⟩ := by
    rw [← hlexeme]
    cases mode <;> first | rfl | cases hcode
  have htrailing : mode.trailing kind (Trivia.flatten tail ++ more) = ⟨tail, more, none⟩ := by
    have hon : (mode.isCode && kind != .eof) = true := by simp [hcode, hkind]
    rw [trailing, if_pos hon, htail]
  have hnone : Trivia.flatten [] = [] := rfl
  simp [Place.next, hleading, hread, htrailing, hnone]

/-- **Behind a line break a token is read as it is without one.** -/
theorem Mode.ReadsBehind.newLine [Alphabet] {cs : Text} {kind : Kind} {text : Text}
    (h : mode.Reads cs kind text tail more) (hcode : mode.isCode = true) (hsolid : cs.Solid) :
    mode.ReadsBehind Trivia.newLine (Trivia.flatten Trivia.newLine ++ cs) kind text tail more := by
  rintro ⟨offset, rest⟩ rfl
  obtain ⟨htoken, hmore⟩ := h ⟨offset, cs⟩ rfl
  have hleading : mode.leading (Trivia.flatten Trivia.newLine ++ cs) =
      ⟨Trivia.newLine, cs, none⟩ := by
    rw [leading_of_isCode hcode]
    exact Trivia.leadingRun_newLine hsolid
  rw [Place.next, mode.leading_of_solid hcode hsolid] at htoken hmore
  rw [Place.next, hleading]
  simp only [Token.mk.injEq, Option.map_none] at htoken hmore ⊢
  obtain ⟨hkind, -, -, htext, htail, hflaw⟩ := htoken
  have hflaws : (Lexeme.read mode cs).flaw = none ∧
      (mode.trailing (Lexeme.read mode cs).kind (Lexeme.read mode cs).rest).flaw = none := by
    simpa using hflaw
  refine ⟨⟨hkind, trivial, trivial, htext, htail, ?_⟩, hmore⟩
  simp [hflaws]

theorem Mode.ReadsBehind.of_leads [Alphabet] {lead : List Trivia}
    (hlead : Trivia.Leads lead) {cs : Text}
    {kind : Kind} {text : Text} (h : mode.Reads cs kind text tail more)
    (hcode : mode.isCode = true) (hsolid : cs.Solid) :
    mode.ReadsBehind lead (Trivia.flatten lead ++ cs) kind text tail more := by
  rcases hlead with rfl | rfl
  · exact h
  · exact h.newLine hcode hsolid

namespace Shape

theorem source_sign_append (k : Kind) (field : Option Field) (tail : List Trivia) (more : Text) :
    (sign k field tail).source ++ more = k.text ++ (Trivia.flatten tail ++ more) := by
  rw [source_sign, List.append_assoc]

theorem source_ident_append [Alphabet] (n : Name) (tail : List Trivia) (more : Text) :
    (ident n tail).source ++ more = n.text ++ (Trivia.flatten tail ++ more) := by
  rw [source_ident, List.append_assoc]

end Shape

/-! ## Signs, words and numbers -/

theorem Mode.solid_sign (mode : Mode) (k : Kind) (hk : mode.hasSign k = true)
    (field : Option Field) (tail : List Trivia) (more : Text) :
    Text.Solid ((Shape.sign k field tail).source ++ more) := by
  rw [Shape.source_sign_append]
  exact Kind.solid_text hk _

/-- **Printed signs are read again.** -/
theorem Mode.reads_sign [Alphabet] (mode : Mode) (k : Kind) (hk : mode.hasSign k = true)
    (h : Trivia.Ends tail more) (field : Option Field) :
    mode.Reads ((Shape.sign k field tail).source ++ more) k k.text tail more := by
  have hcode : mode.isCode = true := by
    cases mode <;> first | rfl | exact absurd hk Bool.false_ne_true
  have hkind : k ≠ .eof := by
    rintro rfl
    cases mode <;> cases hk
  refine reads_of_lexeme hcode hkind (mode.solid_sign k hk field _ _) ?_ h.trailingRun
  rw [Shape.source_sign_append]
  exact Code.lexeme_sign hk h.parted

theorem Mode.reads_of_isWord [Alphabet] (hcode : mode.isCode = true) {t : Text} (ht : t.IsWord)
    (h : Trivia.Ends tail more) :
    mode.Reads (t ++ (Trivia.flatten tail ++ more)) .name t tail more :=
  reads_of_lexeme hcode (by decide) (ht.solid _) (Code.lexeme_word ht h.parted mode) h.trailingRun

/-- **Printed keywords are read again**, as words. -/
theorem Mode.reads_word [Alphabet] (hcode : mode.isCode = true) {k : Kind} (hk : k.isKeyword = true)
    (h : Trivia.Ends tail more) (field : Option Field) :
    mode.Reads ((Shape.sign k field tail).source ++ more) .name k.text tail more := by
  rw [Shape.source_sign_append]
  exact reads_of_isWord hcode (Kind.isWord_text hk) h

/-- The kind that a sign or a keyword is read as. -/
def Kind.seenAs (k : Kind) : Kind := if k.isKeyword then .name else k

/-- Is the kind an operator, as a word or as a sign that is read in the mode? -/
def Mode.hasOperator (mode : Mode) (k : Kind) : Bool :=
  k.isOperatorWord || (!k.isKeyword && mode.hasSign k) || (mode == .operator && k == .slash)

/-- **Printed operators are read again.**  A space stands behind them, so that a slash begins no
comment. -/
theorem Mode.reads_operator [Alphabet] (mode : Mode) {k : Kind} (hcode : mode.isCode = true)
    (hk : mode.hasOperator k = true) (h : more.Settled) (field : Option Field) :
    mode.Reads ((Shape.sign k field Trivia.gap).source ++ more) k.seenAs k.text
      Trivia.gap more := by
  have hends := Trivia.ends_gap_of_settled h
  rw [hasOperator, Bool.or_eq_true, Bool.or_eq_true, Bool.and_eq_true, Bool.and_eq_true,
    Bool.not_eq_true', beq_iff_eq, beq_iff_eq] at hk
  unfold Kind.seenAs
  rcases hk with (hword | ⟨hkey, hsign⟩) | ⟨rfl, rfl⟩
  · have hkey := Kind.isKeyword_of_isOperatorWord hword
    rw [if_pos hkey]
    exact reads_word hcode hkey hends field
  · rw [if_neg (by simp [hkey])]
    exact mode.reads_sign k hsign hends field
  · rw [Shape.source_sign_append]
    exact reads_of_lexeme rfl (by decide) rfl rfl hends.trailingRun

theorem Mode.solid_operator (mode : Mode) {k : Kind} (hk : mode.hasOperator k = true)
    (field : Option Field) (more : Text) :
    Text.Solid ((Shape.sign k field Trivia.gap).source ++ more) := by
  rw [Mode.hasOperator, Bool.or_eq_true, Bool.or_eq_true, Bool.and_eq_true, Bool.and_eq_true,
    beq_iff_eq, beq_iff_eq] at hk
  rcases hk with (hword | ⟨-, hsign⟩) | ⟨-, rfl⟩
  · rw [Shape.source_sign_append]
    exact (Kind.isWord_text (Kind.isKeyword_of_isOperatorWord hword)).solid _
  · exact mode.solid_sign k hsign field _ _
  · rw [Shape.source_sign_append]
    rfl

variable [Alphabet]

/-- **Printed names are read again.** -/
theorem Mode.reads_name (mode : Mode) (hcode : mode.isCode = true) (n : Name)
    (h : Trivia.Ends tail more) :
    mode.Reads ((Shape.ident n tail).source ++ more) .name n.text tail more := by
  rw [Shape.source_ident_append]
  exact reads_of_isWord hcode n.isWord_text h

/-- **Printed numbers are read again.** -/
theorem Mode.reads_numeral (mode : Mode) (hcode : mode.isCode = true) (n : Numeral)
    (h : Trivia.Ends tail more) :
    mode.Reads (n.text ++ (Trivia.flatten tail ++ more)) .number n.text tail more :=
  reads_of_lexeme hcode (by decide) (n.solid _) (Code.lexeme_numeral n h.parted mode) h.trailingRun

/-- An opening parenthesis needs no space behind it. -/
theorem Mode.reads_lParen (hmode : mode = .operator ∨ mode = .exprStart)
    (htail : tail = Trivia.gap ∨ tail = []) (h : more.Solid) :
    mode.Reads ((Shape.sign .lParen none tail).source ++ more) .lParen Kind.lParen.text tail
      more := by
  rcases htail with rfl | rfl
  · exact mode.reads_sign .lParen (by rcases hmode with rfl | rfl <;> rfl) (Trivia.ends_gap h) none
  · rw [Shape.source_sign_append]
    refine reads_of_lexeme (by rcases hmode with rfl | rfl <;> rfl) (by decide) ?_ ?_ ?_
    · exact Trivia.solid_cons (by decide) (by decide) (by decide) _
    · rcases hmode with rfl | rfl <;> rfl
    · exact Trivia.run_eq_nil (Trivia.trailing?_of_settled (Trivia.settled_of_solid h)) _ _

/-- A semicolon may stand at the end of the text. -/
theorem Mode.reads_semicolon :
    Mode.operator.Reads ((Shape.sign .semicolon none []).source ++ []) .semicolon
      Kind.semicolon.text [] [] :=
  reads_of_lexeme rfl (by decide) (Trivia.solid_cons (by decide) (by decide) (by decide) _) rfl rfl

end

end ActionScript
