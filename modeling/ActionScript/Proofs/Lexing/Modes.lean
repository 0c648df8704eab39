import ActionScript.Proofs.Reading

/-!
# Where the modes of code agree

A loop of the grammar asks for the next token in operator mode whether it is to go on, and its body
may then read that token in another mode.  That is sound because the modes of code agree on all that
such a loop asks for: on where the token begins and what stands in front of it, and on the token
itself, unless it opens with one of a few signs, and then it is in no mode one of those that loops
stop at.

* `Code.lexeme_exprStart_eq`, `Code.lexeme_typeArgs_eq`: when the same token is read.
* `Code.lexeme_kind_not_mem_guards`: what the other tokens are not.
* `Place.next_code_agree`: **the modes of code agree, up to a few signs.**
-/

set_option autoImplicit false

namespace ActionScript

namespace Code

/-- The kinds that rules look for in one mode before they read on in another. -/
def guards : List Kind := [.eof, .name, .rCurly, .rParen, .rBrack, .semicolon, .comma, .colon]

/-- The signs on which readings differ before an operand. -/
def operandSigns : List Char := ['/', '<', '-']

/-- The signs on which readings differ somewhere in code. -/
def modeSigns : List Char := '>' :: operandSigns

variable {mode : Mode} {c : Char}

variable [Alphabet]

/-- Before an operand the same token is read as after one, unless it opens with one of three
signs. -/
theorem lexeme_exprStart_eq {cs : Text} (h : ∀ c ∈ cs.head?, c ∉ operandSigns) :
    lexeme .exprStart cs = lexeme .operator cs := by
  cases cs with
  | nil => rfl
  | cons c cs =>
    have hc := h c rfl
    simp only [operandSigns, List.mem_cons, List.not_mem_nil, or_false, not_or] at hc
    simp [lexeme, familyIn?, hc]

/-- Inside type arguments the same token is read as elsewhere, unless it opens with `>`. -/
theorem lexeme_typeArgs_eq {cs : Text} (h : ∀ c ∈ cs.head?, c ≠ '>') :
    lexeme .typeArgs cs = lexeme .operator cs := by
  cases cs with
  | nil => rfl
  | cons c cs =>
    have hc := h c rfl
    simp [lexeme, familyIn?, hc]

/-- A token opens with the first character at hand. -/
theorem head?_text_lexeme (mode : Mode) (cs : Text) : (lexeme mode cs).text.head? = cs.head? := by
  cases cs with
  | nil => rfl
  | cons c cs =>
    have happend := lexeme_append mode (c :: cs)
    obtain ⟨d, text, htext⟩ := List.exists_cons_of_ne_nil (lexeme_proper mode c cs).text_ne
    rw [htext, List.cons_append] at happend
    rw [htext, (List.cons_eq_cons.1 happend).1, List.head?_cons, List.head?_cons]

/-- After an operand, an operator is read that no rule looks for. -/
theorem lexeme_operator_kind_not_mem_guards (hc : c ∈ modeSigns) (cs : Text) :
    (lexeme .operator (c :: cs)).kind ∉ guards := by
  have hfamily {f : Family} (hf : ∀ k ∈ f.single :: f.longer.map Prod.snd, k ∉ guards) :
      (operator f c cs).kind ∉ guards := hf _ (operator_kind_mem f c cs)
  simp only [modeSigns, operandSigns, List.mem_cons, List.not_mem_nil, or_false] at hc
  rcases hc with rfl | rfl | rfl | rfl <;> exact hfamily (by decide)

/-- **Where the modes may differ, no rule looks for what is read** in any of them. -/
theorem lexeme_kind_not_mem_guards (hmode : mode.isCode = true) (hc : c ∈ modeSigns) (cs : Text) :
    (lexeme mode (c :: cs)).kind ∉ guards := by
  have hoperator := lexeme_operator_kind_not_mem_guards hc cs
  cases mode with
  | operator => exact hoperator
  | exprStart =>
    have hbefore : ∀ k ∈ beforeOperand, k ∉ guards := by decide
    rcases lexeme_agree (c :: cs) with heq | ⟨hkind, -⟩
    · rwa [heq]
    · exact hbefore _ hkind
  | typeArgs =>
    rcases lexeme_typeArgs_agree (c :: cs) with heq | ⟨hkind, -⟩
    · rwa [heq]
    · rw [hkind]
      decide
  | xmlTag => cases hmode
  | xmlContent => cases hmode

end Code

variable {mode : Mode}

/-- In code the same pieces stand in front of a token, whatever the mode. -/
theorem Mode.leading_code (hmode : mode.isCode = true) (cs : Text) :
    mode.leading cs = Mode.operator.leading cs := by
  cases mode <;> first | rfl | cases hmode

theorem Mode.read_code [Alphabet] (hmode : mode.isCode = true) (cs : Text) :
    Lexeme.read mode cs = Code.lexeme mode cs := by
  cases mode <;> first | rfl | cases hmode

theorem Mode.trailing_code (hmode : mode.isCode = true) (kind : Kind) (cs : Text) :
    mode.trailing kind cs = Mode.operator.trailing kind cs := by
  cases mode <;> first | rfl | cases hmode

namespace Place

section

variable [Alphabet]

/-- A token read as code opens with the first character behind the trivia. -/
theorem head?_next_text (place : Place) (hmode : mode.isCode = true) :
    (place.next mode).1.text.head? = (Mode.operator.leading place.rest).rest.head? := by
  have htext :
      (place.next mode).1.text =
        (Code.lexeme mode (Mode.operator.leading place.rest).rest).text := by
    rw [← mode.leading_code hmode, ← mode.read_code hmode]
    rfl
  rw [htext, Code.head?_text_lexeme]

/-- Where the same lexeme is read, the whole token is the same, and so is the place behind it. -/
theorem next_eq_of_lexeme (place : Place) (hmode : mode.isCode = true)
    (h : Code.lexeme mode (Mode.operator.leading place.rest).rest =
      Code.lexeme .operator (Mode.operator.leading place.rest).rest) :
    place.next mode = place.next .operator := by
  have hread : Lexeme.read mode (Mode.operator.leading place.rest).rest =
      Lexeme.read .operator (Mode.operator.leading place.rest).rest := by
    rw [mode.read_code hmode, h]
    rfl
  simp only [Place.next, mode.leading_code hmode, mode.trailing_code hmode, hread]

/-- **The modes of code agree, up to a few signs.**  At every place, the token that is read in one
of them has the same pieces in front of it, begins at the same offset, on the same line, and with
the same character.  Before an operand the whole token is that of operator mode unless it opens with
`/`, `<` or `-`, and inside type arguments unless it opens with `>`.  Where it opens with one of
those, it is in no mode of code a kind that rules look for. -/
theorem next_code_agree (place : Place) :
    (∀ mode : Mode, mode.isCode = true →
      (place.next mode).1.leading = (place.next .operator).1.leading ∧
      (place.next mode).1.span.start = (place.next .operator).1.span.start ∧
      (place.next mode).1.startsLine = (place.next .operator).1.startsLine ∧
      (place.next mode).1.text.head? = (place.next .operator).1.text.head?) ∧
    ((∀ c ∈ (place.next .operator).1.text.head?, c ∉ Code.operandSigns) →
      place.next .exprStart = place.next .operator) ∧
    ((∀ c ∈ (place.next .operator).1.text.head?, c ≠ '>') →
      place.next .typeArgs = place.next .operator) ∧
    ∀ c ∈ (place.next .operator).1.text.head?, c ∈ Code.modeSigns →
      ∀ mode : Mode, mode.isCode = true → (place.next mode).1.kind ∉ Code.guards := by
  refine ⟨fun mode hmode => ?_, fun h => ?_, fun h => ?_, fun c hc hsign mode hmode => ?_⟩
  · have hleading : (place.next mode).1.leading = (place.next .operator).1.leading :=
      congrArg Trivia.Run.pieces (mode.leading_code hmode place.rest)
    refine ⟨hleading, ?_, congrArg (List.any · Trivia.breaksLine) hleading, ?_⟩
    · exact congrArg (fun pieces => place.offset + (Trivia.flatten pieces).size) hleading
    · rw [place.head?_next_text hmode, place.head?_next_text rfl]
  · rw [place.head?_next_text rfl] at h
    exact place.next_eq_of_lexeme rfl (Code.lexeme_exprStart_eq h)
  · rw [place.head?_next_text rfl] at h
    exact place.next_eq_of_lexeme rfl (Code.lexeme_typeArgs_eq h)
  · rw [place.head?_next_text rfl] at hc
    obtain ⟨cs, hrest⟩ := List.head?_eq_some_iff.1 hc
    have hkind : (place.next mode).1.kind = (Code.lexeme mode (c :: cs)).kind := by
      rw [← hrest, ← mode.leading_code hmode, ← mode.read_code hmode]
      rfl
    rw [hkind]
    exact Code.lexeme_kind_not_mem_guards hmode hsign cs

end

/-- Before an operand one number is read where otherwise an operator and a name are, and neither is
a kind that rules look for; behind the line break all three modes see a new line. -/
theorem next_code_agree_minus :
    ((Place.start "\n-Infinity".toList).next .exprStart).1.kind = .number ∧
      ((Place.start "\n-Infinity".toList).next .operator).1.kind = .minus ∧
      ((Place.start "\n-Infinity".toList).next .typeArgs).1.kind ∉ Code.guards ∧
      ((Place.start "\n-Infinity".toList).next .exprStart).1.startsLine =
        ((Place.start "\n-Infinity".toList).next .operator).1.startsLine :=
  ⟨by decide, by decide,
    (next_code_agree (.start "\n-Infinity".toList)).2.2.2 '-' rfl (by decide) .typeArgs rfl,
    ((next_code_agree (.start "\n-Infinity".toList)).1 .exprStart rfl).2.2.1⟩

end Place

end ActionScript
