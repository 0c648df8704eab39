import ActionScript.Kind.Spelling
import ActionScript.Token.Lexer

/-!
# What a reading gives

Facts about one reading of a token that do not depend on the grammar:

* `Lexeme.read_proper`: a token that is not the end of the text is never empty, is never read as a
  keyword or as trivia, and has the spelling of its kind if that has one.
* `Place.next_kind_eq_eof`: the end of the text is read exactly where only trivia is left.
* `Place.next_agree`: reading before an operand and after one give the same token, up to a few
  signs.
* `Place.Reaches`: a place lies behind another one in the same text, by what stands between them.
-/

set_option autoImplicit false

namespace ActionScript

/-! ## Kinds of lexemes -/

namespace Kind

/-- Kinds of tokens whose text is free. -/
def isFree : Kind → Bool
  | .name | .number | .string | .regex | .xmlText | .xmlComment | .xmlCdata | .xmlPi
  | .unknown => true
  | _ => false

theorem isFree_cases {k : Kind} (h : k.isFree = true) :
    k.isKeyword = false ∧ k.isTrivia = false ∧ k ≠ .eof ∧ k.spelling = none := by
  cases k <;> revert h <;> decide

theorem spelling_cases {k : Kind} (h : k.spelling.isSome = true) :
    k.isTrivia = false ∧ k ≠ .eof := by
  cases k <;> revert h <;> decide

/-- What is spelled like a kind is its spelling. -/
theorem eq_of_spells {k : Kind} {word : Text} (h : k.spells word = true) :
    ∃ w, k.spelling = some w ∧ word = w.toList := by
  obtain ⟨w, hw, he⟩ := (Option.any_eq_true _ _).1 h
  exact ⟨w, hw, (eq_of_beq he).symm⟩

end Kind

/-- A lexeme that stands for something: it has text, and its kind either leaves that free or is a
sign with that spelling. -/
structure Lexeme.Proper (l : Lexeme) : Prop where
  text_ne : l.text ≠ []
  kind_ok : l.kind.isFree = true ∨ (!l.kind.isKeyword && l.kind.spells l.text) = true

namespace Lexeme.Proper

variable {l : Lexeme}

theorem free {kind : Kind} {text rest : Text} {flaw : Option Flaw} (ht : text ≠ [])
    (hk : kind.isFree = true) : (⟨kind, text, rest, flaw⟩ : Lexeme).Proper := ⟨ht, .inl hk⟩

theorem sign {kind : Kind} {text rest : Text} {flaw : Option Flaw} (ht : text ≠ [])
    (hk : (!kind.isKeyword && kind.spells text) = true) :
    (⟨kind, text, rest, flaw⟩ : Lexeme).Proper := ⟨ht, .inr hk⟩

theorem kind_cases (h : l.Proper) : l.kind.isFree = true ∨
    l.kind.isKeyword = false ∧ ∃ w, l.kind.spelling = some w ∧ l.text = w.toList := by
  rcases h.kind_ok with hk | hk
  · exact .inl hk
  · rw [Bool.and_eq_true, Bool.not_eq_true'] at hk
    exact .inr ⟨hk.1, Kind.eq_of_spells hk.2⟩

theorem kind_ne_eof (h : l.Proper) : l.kind ≠ .eof := by
  rcases h.kind_cases with hk | ⟨-, w, hw, -⟩
  · exact (Kind.isFree_cases hk).2.2.1
  · exact (Kind.spelling_cases (by rw [hw]; rfl)).2

theorem not_keyword (h : l.Proper) : l.kind.isKeyword = false := by
  rcases h.kind_cases with hk | ⟨hk, -⟩
  · exact (Kind.isFree_cases hk).1
  · exact hk

theorem not_trivia (h : l.Proper) : l.kind.isTrivia = false := by
  rcases h.kind_cases with hk | ⟨-, w, hw, -⟩
  · exact (Kind.isFree_cases hk).2.1
  · exact (Kind.spelling_cases (by rw [hw]; rfl)).1

/-- The text is the spelling of the kind. -/
theorem text_eq (h : l.Proper) {w : String} (hw : l.kind.spelling = some w) :
    l.text = w.toList := by
  rcases h.kind_cases with hk | ⟨-, v, hv, ht⟩
  · rw [(Kind.isFree_cases hk).2.2.2] at hw
    cases hw
  · rw [hv] at hw
    rw [ht, Option.some.inj hw]

end Lexeme.Proper

/-! ## Code -/

namespace Number

theorem andThen_ne_nil {read : Text × Text} (more : Text → Text × Text) (h : read.1 ≠ []) :
    (andThen read more).1 ≠ [] := by
  simp [andThen, h]

theorem decimal_ne_nil {c : Char} (cs : Text) (h : c.isDigit = true) :
    (decimal (c :: cs)).1 ≠ [] := by
  have hd : (digits (c :: cs)).1 ≠ [] := by simp [digits, longest, h]
  unfold decimal
  dsimp only
  split
  · exact andThen_ne_nil _ hd
  · simp [hd]

theorem scan_ne_nil {c : Char} (cs : Text) (h : c.isDigit = true ∨ c = '.') :
    (scan (c :: cs)).1 ≠ [] := by
  unfold scan
  split
  · exact andThen_ne_nil _ (andThen_ne_nil _ (by simp))
  · split
    · exact andThen_ne_nil _ (andThen_ne_nil _ (by simp))
    · split
      · exact andThen_ne_nil _ (andThen_ne_nil _ (by simp))
      · exact decimal_ne_nil _ (by decide)
  · rename_i hdot _
    rcases h with h | rfl
    · exact decimal_ne_nil _ h
    · exact absurd rfl (hdot cs)

end Number

namespace Code

/-- Are the single sign of a family and its longer readings spelled as their kinds say? -/
def Family.isSpelled (f : Family) (c : Char) : Bool :=
  (([], f.single) :: f.longer).all fun (more, kind) => !kind.isKeyword && kind.spells (c :: more)

theorem family?_isSpelled {c : Char} {f : Family} (h : family? c = some f) :
    f.isSpelled c = true := by
  unfold family? at h
  split at h <;> simp only [Option.some.injEq, reduceCtorEq] at h <;> subst h <;> decide

theorem familyIn?_isSpelled {mode : Mode} {c : Char} {f : Family}
    (h : familyIn? mode c = some f) : f.isSpelled c = true := by
  unfold familyIn? at h
  split at h
  · rename_i hc
    rw [Bool.and_eq_true, beq_iff_eq, beq_iff_eq] at hc
    obtain ⟨-, rfl⟩ := hc
    cases h
    decide
  · split at h
    · rename_i hc
      rw [Bool.and_eq_true, beq_iff_eq, beq_iff_eq] at hc
      obtain ⟨-, rfl⟩ := hc
      cases h
      decide
    · exact family?_isSpelled h

theorem operator_proper {f : Family} {c : Char} (h : f.isSpelled c = true) (cs : Text) :
    (operator f c cs).Proper := by
  rw [Family.isSpelled, List.all_eq_true] at h
  unfold operator
  split
  · rename_i more kind hm
    have := List.mem_of_find?_eq_some hm
    exact ⟨by simp, .inr (h (more, kind) (List.mem_cons_of_mem _ this))⟩
  · exact ⟨by simp, .inr (h ([], f.single) List.mem_cons_self)⟩

theorem word_proper [Alphabet] (c : Char) (cs : Text) : (word c cs).Proper := by
  refine ⟨by simp [word], .inl ?_⟩
  unfold word
  dsimp only
  split <;> rfl

/-- **A token of code is proper**, unless the text is at its end. -/
theorem lexeme_proper [Alphabet] (mode : Mode) (c : Char) (cs : Text) :
    (lexeme mode (c :: cs)).Proper := by
  rw [lexeme]
  split
  · rename_i h
    rw [Bool.or_eq_true, Bool.and_eq_true, beq_iff_eq] at h
    exact ⟨Number.scan_ne_nil cs (h.imp_right And.left), .inl rfl⟩
  · split
    · unfold Quotation.lexeme
      dsimp only
      split
      · exact .free (by simp) rfl
      · exact .free (by simp) rfl
    · split
      · unfold Pattern.lexeme
        split
        · exact .free (by simp) rfl
        · exact .free (by simp) rfl
      · split
        · exact .free (by simp) rfl
        · split
          · rename_i f hf
            exact operator_proper (familyIn?_isSpelled hf) cs
          · split
            · exact word_proper c cs
            · exact .free (by simp) rfl

theorem operator_kind_mem (f : Family) (c : Char) (cs : Text) :
    (operator f c cs).kind ∈ f.single :: f.longer.map Prod.snd := by
  unfold operator
  split
  · rename_i more kind hm
    have hmem := List.mem_of_find?_eq_some hm
    exact List.mem_cons_of_mem _ (List.mem_map.2 ⟨(more, kind), hmem, rfl⟩)
  · exact List.mem_cons_self

/-- No operator has the kind of a name. -/
theorem familyIn?_kind_ne {mode : Mode} {c : Char} {f : Family} (h : familyIn? mode c = some f) :
    Kind.name ∉ f.single :: f.longer.map Prod.snd := by
  unfold familyIn? at h
  split at h
  · cases h
    decide
  · split at h
    · cases h
      decide
    · unfold family? at h
      split at h <;> simp only [Option.some.injEq, reduceCtorEq] at h <;> subst h <;> decide

/-- **A name is read as a word.** -/
theorem lexeme_name [Alphabet] {mode : Mode} {cs : Text} (h : (lexeme mode cs).kind = .name) :
    ∃ c ds, cs = c :: ds ∧ isIdentStart c = true ∧ lexeme mode cs = word c ds := by
  cases cs with
  | nil => cases h
  | cons c ds =>
    refine ⟨c, ds, rfl, ?_⟩
    rw [lexeme] at h ⊢
    split at h
    · cases h
    · split at h
      · unfold Quotation.lexeme at h
        dsimp only at h
        split at h <;> cases h
      · split at h
        · unfold Pattern.lexeme at h
          split at h <;> cases h
        · split at h
          · cases h
          · split at h
            · rename_i f hf
              exact absurd (h ▸ operator_kind_mem f c ds) (familyIn?_kind_ne hf)
            · split at h
              · rename_i hquote hslash hminus hfamily hstart
                exact ⟨hstart, by simp [*]⟩
              · cases h

/-- The kinds that can only be read before an operand, where another token is read after one. -/
def beforeOperand : List Kind := [.regex, .unknown, .lt, .number]

/-- The kinds read after an operand where another token is read before one. -/
def afterOperand : List Kind :=
  [.slash, .slashEq, .lt, .shlEq, .shl, .lteq, .minus, .minus2, .minusEq]

theorem operator_kind_mem_afterOperand {f : Family} (c : Char) (cs : Text)
    (h : ∀ k ∈ f.single :: f.longer.map Prod.snd, k ∈ afterOperand) :
    (operator f c cs).kind ∈ afterOperand :=
  h _ (operator_kind_mem f c cs)

/-- Before an operand the same token is read as after one, unless it starts with one of the three
signs on which they differ. -/
theorem lexeme_agree [Alphabet] (cs : Text) : lexeme .exprStart cs = lexeme .operator cs ∨
    (lexeme .exprStart cs).kind ∈ beforeOperand ∧ (lexeme .operator cs).kind ∈ afterOperand := by
  cases cs with
  | nil => exact .inl rfl
  | cons c cs =>
    by_cases hslash : c = '/'
    · subst hslash
      refine .inr ⟨?_, operator_kind_mem_afterOperand '/' cs (by decide)⟩
      change (Pattern.lexeme cs).kind ∈ beforeOperand
      unfold Pattern.lexeme
      split
      · exact List.mem_cons_self
      · exact List.mem_cons_of_mem _ List.mem_cons_self
    · by_cases hlt : c = '<'
      · subst hlt
        exact .inr ⟨by change Kind.lt ∈ beforeOperand; decide,
          operator_kind_mem_afterOperand '<' cs (by decide)⟩
      · by_cases hminus : c = '-'
        · subst hminus
          by_cases hinf : atInfinity cs = true
          · refine .inr ⟨?_, operator_kind_mem_afterOperand '-' cs (by decide)⟩
            have : (lexeme .exprStart ('-' :: cs)).kind = .number := by
              simp [lexeme, hinf, Char.isDigit]
            rw [this]
            decide
          · left
            simp [lexeme, hinf, Char.isDigit, familyIn?]
        · left
          simp [lexeme, hslash, hlt, hminus, familyIn?]

/-- Inside type arguments the same token is read as elsewhere, unless it starts with `>`. -/
theorem lexeme_typeArgs_agree [Alphabet] (cs : Text) : lexeme .typeArgs cs = lexeme .operator cs ∨
    (lexeme .typeArgs cs).kind = .gt ∧
      (lexeme .operator cs).kind ∈ [Kind.gt, .ushrEq, .ushr, .shrEq, .shr, .gteq] := by
  cases cs with
  | nil => exact .inl rfl
  | cons c cs =>
    by_cases hgt : c = '>'
    · subst hgt
      exact .inr ⟨rfl, operator_kind_mem ⟨.gt, _⟩ '>' cs⟩
    · left
      simp [lexeme, hgt, familyIn?]

end Code

/-! ## Markup -/

namespace Markup

theorem value_proper (quote : Char) (cs : Text) : (value quote cs).Proper := by
  unfold value
  split
  · exact .free (by simp) rfl
  · exact .free (by simp) rfl

theorem tag_proper [Alphabet] {cs : Text} (h : cs ≠ []) : (tag cs).Proper := by
  unfold tag
  split
  · exact absurd rfl h
  · exact .sign (by simp) (by decide)
  · exact .sign (by simp) (by decide)
  · rename_i c cs _ _
    split
    · rename_i hc
      obtain rfl := eq_of_beq hc
      exact .sign (by simp) (by decide)
    · split
      · rename_i hc
        obtain rfl := eq_of_beq hc
        exact .sign (by simp) (by decide)
      · split
        · rename_i hc
          obtain rfl := eq_of_beq hc
          exact .sign (by simp) (by decide)
        · split
          · rename_i hc
            obtain rfl := eq_of_beq hc
            exact .sign (by simp) (by decide)
          · split
            · rename_i hc
              obtain rfl := eq_of_beq hc
              exact .sign (by simp) (by decide)
            · split
              · exact value_proper c cs
              · split
                · exact .free (by simp) rfl
                · exact .free (by simp) rfl

theorem enclosures_kind {e : Enclosure} (h : e ∈ enclosures) :
    e.kind.isFree = true ∧ e.kind ≠ .lt ∧ e.opening ≠ [] := by
  simp only [enclosures, List.mem_cons, List.not_mem_nil, or_false] at h
  rcases h with rfl | rfl | rfl <;> decide

theorem enclosed_kind (e : Enclosure) (cs : Text) : (enclosed e cs).kind = e.kind := by
  unfold enclosed
  split <;> rfl

theorem enclosed_proper {e : Enclosure} (he : e ∈ enclosures) {cs : Text} (h : cs ≠ []) :
    (enclosed e cs).Proper := by
  obtain ⟨hfree, -, hopening⟩ := enclosures_kind he
  refine ⟨?_, .inl (by rw [enclosed_kind]; exact hfree)⟩
  unfold enclosed
  split
  · simp [hopening]
  · exact h

theorem content_proper {cs : Text} (h : cs ≠ []) : (content cs).Proper := by
  unfold content
  split
  · rename_i e he
    exact enclosed_proper (List.mem_of_find?_eq_some he) h
  · split
    · exact absurd rfl h
    · exact .sign (by simp) (by decide)
    · rename_i c cs _ _
      split
      · rename_i hc
        obtain rfl := eq_of_beq hc
        exact .sign (by simp) (by decide)
      · split
        · rename_i hc
          obtain rfl := eq_of_beq hc
          exact .sign (by simp) (by decide)
        · exact .free (by simp) rfl

/-- Between tags, `<` is read only where it stands. -/
theorem content_kind_lt {cs : Text} (h : (content cs).kind = .lt) : ∃ rest, cs = '<' :: rest := by
  unfold content at h
  split at h
  · rename_i e he
    rw [enclosed_kind] at h
    exact absurd h (enclosures_kind (List.mem_of_find?_eq_some he)).2.1
  · split at h
    · cases h
    · cases h
    · rename_i c cs _ _
      split at h
      · rename_i hc
        exact ⟨cs, by rw [eq_of_beq hc]⟩
      · split at h <;> cases h

end Markup

/-! ## Readings -/

theorem Lexeme.read_nil [Alphabet] (mode : Mode) : Lexeme.read mode [] = ⟨.eof, [], [], none⟩ := by
  cases mode <;> rfl

/-- **Every token is proper** but the end of the text. -/
theorem Lexeme.read_proper [Alphabet] (mode : Mode) {cs : Text} (h : cs ≠ []) :
    (Lexeme.read mode cs).Proper := by
  obtain ⟨c, cs, rfl⟩ := List.exists_cons_of_ne_nil h
  cases mode with
  | xmlContent => exact Markup.content_proper h
  | xmlTag => exact Markup.tag_proper h
  | operator => exact Code.lexeme_proper .operator c cs
  | exprStart => exact Code.lexeme_proper .exprStart c cs
  | typeArgs => exact Code.lexeme_proper .typeArgs c cs

theorem Lexeme.read_kind_eq_eof [Alphabet] {mode : Mode} {cs : Text} :
    (Lexeme.read mode cs).kind = .eof ↔ cs = [] := by
  constructor
  · intro h
    exact Classical.byContradiction fun hne => (Lexeme.read_proper mode hne).kind_ne_eof h
  · rintro rfl
    rw [Lexeme.read_nil]

namespace Place

variable {place : Place} {mode : Mode}

/-- **The end of the text is read exactly where only trivia is left.** -/
theorem next_kind_eq_eof [Alphabet] :
    (place.next mode).1.kind = .eof ↔ (mode.leading place.rest).rest = [] :=
  Lexeme.read_kind_eq_eof

/-- All that is left goes to the end of the text. -/
theorem next_of_eof [Alphabet] (h : (place.next mode).1.kind = .eof) :
    (place.next mode).1.text = [] ∧ (place.next mode).1.trailing = [] ∧
      (place.next mode).2.rest = [] := by
  have hrest := next_kind_eq_eof.1 h
  have hread : Lexeme.read mode (mode.leading place.rest).rest = ⟨.eof, [], [], none⟩ := by
    rw [hrest, Lexeme.read_nil]
  simp [Place.next, hread, Mode.trailing]

theorem next_proper [Alphabet] (h : (place.next mode).1.kind ≠ .eof) :
    (Lexeme.read mode (mode.leading place.rest).rest).Proper :=
  Lexeme.read_proper mode fun hrest => h (next_kind_eq_eof.2 hrest)

theorem next_text_ne [Alphabet] (h : (place.next mode).1.kind ≠ .eof) :
    (place.next mode).1.text ≠ [] :=
  (next_proper h).text_ne

/-- A word is never read as a keyword. -/
theorem next_not_keyword [Alphabet] : (place.next mode).1.kind.isKeyword = false := by
  by_cases h : (place.next mode).1.kind = .eof
  · rw [h]
    decide
  · exact (next_proper h).not_keyword

/-- A token is never read as trivia. -/
theorem next_not_trivia [Alphabet] : (place.next mode).1.kind.isTrivia = false := by
  by_cases h : (place.next mode).1.kind = .eof
  · rw [h]
    decide
  · exact (next_proper h).not_trivia

/-- A token of a kind with a spelling has that spelling. -/
theorem next_text_eq [Alphabet] {w : String} (hw : (place.next mode).1.kind.spelling = some w) :
    (place.next mode).1.text = w.toList := by
  by_cases h : (place.next mode).1.kind = .eof
  · rw [h] at hw
    cases hw
  · exact (next_proper h).text_eq hw

/-- At the end of the text nothing else is read. -/
theorem next_kind_of_rest_nil [Alphabet] (h : place.rest = []) (mode : Mode) :
    (place.next mode).1.kind = .eof := by
  rw [next_kind_eq_eof, h]
  cases mode <;> rfl

theorem rest_ne_nil [Alphabet] (h : (place.next mode).1.kind ≠ .eof) : place.rest ≠ [] :=
  fun hrest => h (next_kind_of_rest_nil hrest mode)

/-- Before an operand and after one, the text is at its end alike. -/
theorem exprStart_eof_iff [Alphabet] :
    (place.next .exprStart).1.kind = .eof ↔ (place.next .operator).1.kind = .eof := by
  rw [next_kind_eq_eof, next_kind_eq_eof]
  rfl

/-- **Before an operand the same token is read as after one**, up to a few signs. -/
theorem next_agree [Alphabet] (place : Place) : place.next .exprStart = place.next .operator ∨
    (place.next .exprStart).1.kind ∈ Code.beforeOperand ∧
      (place.next .operator).1.kind ∈ Code.afterOperand := by
  rcases Code.lexeme_agree (Mode.leading .operator place.rest).rest with h | h
  · have hread : Lexeme.read .exprStart (Mode.leading .exprStart place.rest).rest =
        Lexeme.read .operator (Mode.leading .operator place.rest).rest := h
    left
    simp only [Place.next, hread]
    rfl
  · exact .inr h

theorem next_exprStart_eq [Alphabet] (h : (place.next .exprStart).1.kind ∉ Code.beforeOperand) :
    place.next .exprStart = place.next .operator :=
  place.next_agree.resolve_right fun ha => h ha.1

theorem next_operator_eq [Alphabet] (h : (place.next .operator).1.kind ∉ Code.afterOperand) :
    place.next .exprStart = place.next .operator :=
  place.next_agree.resolve_right fun ha => h ha.2

/-- Inside type arguments only `>` is read differently. -/
theorem next_typeArgs_agree [Alphabet] (place : Place) :
    place.next .typeArgs = place.next .operator ∨
    (place.next .typeArgs).1.kind = .gt ∧
      (place.next .operator).1.kind ∈ [Kind.gt, .ushrEq, .ushr, .shrEq, .shr, .gteq] := by
  rcases Code.lexeme_typeArgs_agree (Mode.leading .operator place.rest).rest with h | h
  · have hread : Lexeme.read .typeArgs (Mode.leading .typeArgs place.rest).rest =
        Lexeme.read .operator (Mode.leading .operator place.rest).rest := h
    left
    simp only [Place.next, hread]
    rfl
  · exact .inr h

/-- Where `<` stands between tags, the text is not at its end. -/
theorem operator_ne_eof_of_content_lt [Alphabet] (h : (place.next .xmlContent).1.kind = .lt) :
    (place.next .operator).1.kind ≠ .eof := by
  have hread : (Markup.content place.rest).kind = .lt := h
  obtain ⟨rest, hrest⟩ := Markup.content_kind_lt hread
  rw [Ne, next_kind_eq_eof, hrest]
  have hnone : Trivia.leading? true ('<' :: rest) = none := by
    have : isBlank '<' = false := by decide
    simp [Trivia.leading?, Trivia.lineBreak?, Trivia.comment?, Trivia.blanks?, isLineBreak, this]
  simp [Mode.leading, Trivia.leadingRun, Trivia.run, Mode.isCode, hnone]

/-! ## Places -/

/-- `q` lies behind `p`: what is left at `p` is some text and then what is left at `q`. -/
def Reaches (p q : Place) : Prop :=
  ∃ read : Text, p.rest = read ++ q.rest ∧ q.offset = p.offset + read.size

namespace Reaches

variable {p q r : Place}

theorem refl (p : Place) : p.Reaches p := ⟨[], by simp, by simp⟩

theorem trans (h₁ : p.Reaches q) (h₂ : q.Reaches r) : p.Reaches r := by
  obtain ⟨a, ha, hp⟩ := h₁
  obtain ⟨b, hb, hq⟩ := h₂
  refine ⟨a ++ b, by rw [ha, hb, List.append_assoc], ?_⟩
  rw [hq, hp, Text.size_append]
  omega

theorem offset_le (h : p.Reaches q) : p.offset ≤ q.offset := by
  obtain ⟨read, -, ho⟩ := h
  omega

/-- Moving on leaves less of the text. -/
theorem length_lt (h : p.Reaches q) (hlt : p.offset < q.offset) :
    q.rest.length < p.rest.length := by
  obtain ⟨read, hr, ho⟩ := h
  cases read with
  | nil =>
    rw [Text.size_nil] at ho
    omega
  | cons c cs =>
    rw [hr, List.length_append, List.length_cons]
    omega

/-- A place that has not moved on is where it was. -/
theorem eq_of_offset_le (h : p.Reaches q) (hle : q.offset ≤ p.offset) : q = p := by
  obtain ⟨read, hr, ho⟩ := h
  cases read with
  | nil =>
    cases p
    cases q
    simp_all
  | cons c cs =>
    have := Text.size_pos (List.cons_ne_nil c cs)
    omega

end Reaches

theorem reaches_next [Alphabet] (place : Place) (mode : Mode) : place.Reaches (place.next mode).2 :=
  ⟨_, (place.next_append mode).symm, place.next_offset mode⟩

theorem reaches_finish (place : Place) : place.Reaches place.finish :=
  ⟨place.rest, by simp [finish], rfl⟩

/-- A token moves the place on. -/
theorem offset_lt_next [Alphabet] (h : (place.next mode).1.kind ≠ .eof) :
    place.offset < (place.next mode).2.offset := by
  rw [place.next_offset mode]
  have := Text.size_pos (next_text_ne h)
  simp only [Token.source, Text.size_append]
  omega

theorem offset_lt_finish (h : place.rest ≠ []) : place.offset < place.finish.offset := by
  have := Text.size_pos h
  simp only [finish]
  omega

end Place

end ActionScript
