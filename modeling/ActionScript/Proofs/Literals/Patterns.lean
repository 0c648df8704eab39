import ActionScript.Proofs.Literals.Nodes
import ActionScript.Proofs.Spacing.Tokens

/-!
# Where a regular expression literal ends

The closing slash is told by what stands between it and the opening one: it is on the same line, an
even number of backslashes is right in front of it, and of the brackets that are not escaped the
last one is not an opening one.  The reader goes from the left with a flag for the brackets and
finds the first such slash.

* `escaped`, `InClass`, `Closes`: which slash can close a literal.
* `IsBody`: what stands in front of the first one that does.
* `body_some`, `body_none`: **the reader finds the first one**, if there is one.
* `next_of_slash`: when a slash in front of an operand opens a literal, and which.
* `parts_eq`: the last slash of a literal is the one that closes it.
* `patterns_delimited`: **literals end at their closing slash**, where they are read and where they
  are taken apart.
-/

set_option autoImplicit false

namespace ActionScript.Pattern

/-- The character behind such a text is escaped: an odd number of backslashes stands right before
it. -/
def escaped (u : Text) : Bool := (u.reverse.takeWhile (· == '\\')).length % 2 == 1

/-- The character behind such a text is in a class: no bracket that closes one, but for escaped
ones, comes behind a bracket that opens one. -/
def InClass (u : Text) : Prop :=
  ∃ v w, u = v ++ '[' :: w ∧ escaped v = false ∧ ∀ x y, w = x ++ ']' :: y →
    escaped (v ++ '[' :: x) = true

/-- A slash behind such a text closes the literal. -/
structure Closes (u : Text) : Prop where
  line : ∀ c ∈ u, isLineBreak c = false
  escaped_eq : escaped u = false
  outside : ¬InClass u

/-- Such a text goes on with the body of a literal, `u` being the beginning of it: a slash behind it
closes the literal, and none inside it does. -/
structure IsBody (u b : Text) : Prop where
  closes : Closes (u ++ b)
  first : ∀ x y, b = x ++ '/' :: y → ¬Closes (u ++ x)

/-! ## One character more -/

theorem escaped_concat (u : Text) (c : Char) : escaped (u ++ [c]) = (c == '\\' && !escaped u) := by
  rw [escaped, escaped, List.reverse_append, List.reverse_singleton, List.singleton_append,
    List.takeWhile_cons]
  cases hc : c == '\\' with
  | false => simp
  | true =>
    simp only [if_true, List.length_cons, Bool.true_and]
    generalize (u.reverse.takeWhile (· == '\\')).length = n
    rw [Bool.eq_iff_iff]
    simp only [beq_iff_eq, Bool.not_eq_true', beq_eq_false_iff_ne, ne_eq]
    omega

theorem not_inClass_nil : ¬InClass [] := by
  rintro ⟨v, w, h, -⟩
  simp at h

theorem inClass_concat (u : Text) (c : Char) : InClass (u ++ [c]) ↔
    c = '[' ∧ escaped u = false ∨ InClass u ∧ ¬(c = ']' ∧ escaped u = false) := by
  constructor
  · rintro ⟨v, w, h, hv, hw⟩
    rcases w.eq_nil_or_concat with rfl | ⟨w, d, rfl⟩
    · obtain ⟨rfl, hc⟩ := List.append_inj' h rfl
      exact .inl ⟨(List.cons.inj hc).1, hv⟩
    · rw [List.concat_eq_append] at *
      have hsplit : u ++ [c] = (v ++ '[' :: w) ++ [d] := by simpa using h
      obtain ⟨rfl, hc⟩ := List.append_inj' hsplit rfl
      obtain rfl : c = d := (List.cons.inj hc).1
      refine .inr ⟨⟨v, w, rfl, hv, fun x y hxy => hw x (y ++ [c]) (by simp [hxy])⟩, ?_⟩
      rintro ⟨rfl, hu⟩
      rw [hw w [] rfl] at hu
      cases hu
  · rintro (⟨rfl, hu⟩ | ⟨⟨v, w, rfl, hv, hw⟩, hc⟩)
    · exact ⟨u, [], rfl, hu, fun x y hxy => by simp at hxy⟩
    · refine ⟨v, w ++ [c], by simp, hv, fun x y hxy => ?_⟩
      rcases y.eq_nil_or_concat with rfl | ⟨y, d, rfl⟩
      · obtain ⟨rfl, hlast⟩ := List.append_inj' hxy rfl
        by_contra hnot
        exact hc ⟨(List.cons.inj hlast).1, Bool.eq_false_iff.2 hnot⟩
      · rw [List.concat_eq_append] at hxy
        have hsplit : w ++ [c] = (x ++ ']' :: y) ++ [d] := by simpa using hxy
        exact hw x y (List.append_inj' hsplit rfl).1

/-! ## Going along -/

/-- The reader has come behind `u`, with such a flag. -/
structure Reached (u : Text) (bracketed : Bool) : Prop where
  line : ∀ c ∈ u, isLineBreak c = false
  escaped_eq : escaped u = false
  inClass_iff : InClass u ↔ bracketed = true

theorem reached_nil : Reached [] false := ⟨by simp, rfl, by simp [not_inClass_nil]⟩

namespace Reached

variable {u : Text} {bracketed : Bool} {c d : Char}

theorem closes_iff (h : Reached u bracketed) : Closes u ↔ bracketed = false := by
  constructor
  · intro hcloses
    rw [← Bool.not_eq_true, ← h.inClass_iff]
    exact hcloses.outside
  · rintro rfl
    exact ⟨h.line, h.escaped_eq, by simp [h.inClass_iff]⟩

theorem concat (h : Reached u bracketed) (hbreak : isLineBreak c = false) (hc : c ≠ '\\') :
    Reached (u ++ [c]) (if c == '[' then true else if c == ']' then false else bracketed) := by
  refine ⟨?_, by simp [escaped_concat, hc], ?_⟩
  · simpa [or_imp, forall_and, hbreak] using h.line
  · rw [inClass_concat, h.inClass_iff, h.escaped_eq]
    by_cases hopen : c = '['
    · simp [hopen]
    · by_cases hclose : c = ']' <;> simp [hopen, hclose]

theorem concat_escape (h : Reached u bracketed) (hbreak : isLineBreak d = false) :
    escaped (u ++ ['\\']) = true ∧ Reached (u ++ ['\\', d]) bracketed := by
  have hescaped : escaped (u ++ ['\\']) = true := by simp [escaped_concat, h.escaped_eq]
  have hsplit : u ++ ['\\', d] = u ++ ['\\'] ++ [d] := by simp
  refine ⟨hescaped, ?_, ?_, ?_⟩
  · have hslash : isLineBreak '\\' = false := rfl
    simpa [or_imp, forall_and, hbreak, hslash] using h.line
  · rw [hsplit, escaped_concat, hescaped]
    simp
  · rw [hsplit, inClass_concat, inClass_concat, h.inClass_iff, hescaped]
    simp

end Reached

/-- Where the next character is no closing slash, one comes behind it. -/
theorem Closes.step {u b cs rest : Text} {c : Char} (h : Closes (u ++ b))
    (hb : c :: cs = b ++ '/' :: rest)
    (hc : ¬(c = '/' ∧ Closes u)) : ∃ b', b = c :: b' ∧ cs = b' ++ '/' :: rest ∧
    Closes (u ++ [c] ++ b') := by
  cases b with
  | nil =>
    rw [List.append_nil] at h
    exact absurd ⟨(List.cons.inj hb).1, h⟩ hc
  | cons d b =>
    obtain ⟨rfl, hcs⟩ := List.cons.inj hb
    exact ⟨b, rfl, hcs, by simpa using h⟩

theorem IsBody.step {u b : Text} {c : Char} (h : IsBody (u ++ [c]) b) (hc : ¬(c = '/' ∧ Closes u)) :
    IsBody u (c :: b) := by
  refine ⟨by simpa using h.closes, fun x y hxy hcloses => ?_⟩
  obtain ⟨x, rfl, hb, hcloses⟩ := hcloses.step hxy hc
  exact h.first x y hb hcloses

variable {bracketed : Bool} {u cs read rest : Text}

/-- **The reader stops at the first slash that closes the literal.** -/
theorem body_some (hu : Reached u bracketed) (h : body bracketed cs = some (read, rest)) :
    ∃ b, cs = b ++ '/' :: rest ∧ read = b ++ ['/'] ∧ IsBody u b := by
  fun_induction body bracketed cs generalizing u read with
  | case1 | case2 | case3 | case4 => cases h
  | case5 bracketed c hbreak hescape d ds hd ih =>
    simp only [Option.map_eq_some_iff, Prod.mk.injEq] at h
    obtain ⟨⟨read, rest⟩, hbody, rfl, rfl⟩ := h
    obtain rfl : c = '\\' := by simpa using hescape
    obtain ⟨hescaped, hreached⟩ := hu.concat_escape (d := d) (by simpa using hd)
    obtain ⟨b, rfl, rfl, hb⟩ := ih hreached hbody
    have hbehind : IsBody (u ++ ['\\'] ++ [d]) b := by simpa using hb
    refine ⟨'\\' :: d :: b, rfl, rfl, (hbehind.step fun hslash => ?_).step fun hslash => ?_⟩
    · rw [hslash.2.escaped_eq] at hescaped
      cases hescaped
    · exact absurd hslash.1 (by decide)
  | case6 bracketed c cs hbreak hescape hslash =>
    simp only [Option.some.injEq, Prod.mk.injEq] at h
    obtain ⟨rfl, rfl⟩ := h
    simp only [Bool.and_eq_true, beq_iff_eq, Bool.not_eq_true'] at hslash
    obtain ⟨rfl, hopen⟩ := hslash
    refine ⟨[], rfl, rfl, ?_, fun x y hxy => by simp at hxy⟩
    rw [List.append_nil]
    exact hu.closes_iff.2 hopen
  | case7 bracketed c cs hbreak hescape hslash ih =>
    simp only [Option.map_eq_some_iff, Prod.mk.injEq] at h
    obtain ⟨⟨read, rest⟩, hbody, rfl, rfl⟩ := h
    obtain ⟨b, rfl, rfl, hb⟩ :=
      ih (hu.concat (by simpa using hbreak) (by simpa using hescape)) hbody
    refine ⟨c :: b, rfl, rfl, hb.step fun hclose => hslash ?_⟩
    simp [hclose.1, hu.closes_iff.1 hclose.2]

theorem Closes.not_lineBreak {b : Text} {c : Char} (h : Closes (u ++ b)) (hc : c ∈ b) :
    ¬isLineBreak c = true := by
  rw [h.line c (List.mem_append_right _ hc)]
  exact Bool.false_ne_true

/-- **Where the reader finds no closing slash, there is none.** -/
theorem body_none (hu : Reached u bracketed) (h : body bracketed cs = none) {b : Text}
    (hcs : cs = b ++ '/' :: rest) : ¬Closes (u ++ b) := by
  intro hcloses
  have hbackslash {c : Char} (hc : (c == '\\') = true) (v : Text) : ¬(c = '/' ∧ Closes v) := by
    rintro ⟨rfl, -⟩
    cases hc
  fun_induction body bracketed cs generalizing u b with
  | case1 => simp at hcs
  | case2 bracketed c cs hbreak =>
    have hslash : ¬(c = '/' ∧ Closes u) := by
      rintro ⟨rfl, -⟩
      cases hbreak
    obtain ⟨b, rfl, -, -⟩ := hcloses.step hcs hslash
    exact hcloses.not_lineBreak List.mem_cons_self hbreak
  | case3 bracketed c hbreak hescape =>
    obtain ⟨b, rfl, hnil, -⟩ := hcloses.step hcs (hbackslash hescape u)
    simp at hnil
  | case4 bracketed c hbreak hescape d ds hd =>
    obtain ⟨b, rfl, hds, hnext⟩ := hcloses.step hcs (hbackslash hescape u)
    have hslash : ¬(d = '/' ∧ Closes (u ++ [c])) := by
      rintro ⟨rfl, -⟩
      cases hd
    obtain ⟨b, rfl, -, -⟩ := hnext.step hds hslash
    exact hnext.not_lineBreak List.mem_cons_self hd
  | case5 bracketed c hbreak hescape d ds hd ih =>
    obtain rfl : c = '\\' := by simpa using hescape
    obtain ⟨hescaped, hreached⟩ := hu.concat_escape (d := d) (by simpa using hd)
    obtain ⟨b, rfl, hds, hnext⟩ := hcloses.step hcs (hbackslash hescape u)
    have hslash : ¬(d = '/' ∧ Closes (u ++ ['\\'])) := by
      rintro ⟨-, hclose⟩
      rw [hclose.escaped_eq] at hescaped
      cases hescaped
    obtain ⟨b, rfl, hmore, hlast⟩ := hnext.step hds hslash
    exact ih hreached (by simpa using h) hmore (by simpa using hlast)
  | case6 => cases h
  | case7 bracketed c cs hbreak hescape hslash ih =>
    have hopen : ¬(c = '/' ∧ Closes u) := fun hclose =>
      hslash (by simp [hclose.1, hu.closes_iff.1 hclose.2])
    obtain ⟨b, rfl, hmore, hnext⟩ := hcloses.step hcs hopen
    exact ih (hu.concat (by simpa using hbreak) (by simpa using hescape))
      (by simpa using h) hmore hnext

/-! ## Tokens -/

/-- A literal is closed by the first slash that can, and takes the letters behind it; else the
opening slash stands alone and is reported. -/
theorem lexeme_cases [Alphabet] (cs : Text) :
    (∃ b rest, cs = b ++ '/' :: rest ∧ IsBody [] b ∧ lexeme cs =
      ⟨.regex, '/' :: b ++ '/' :: rest.takeWhile isIdentContinue,
        rest.dropWhile isIdentContinue, none⟩) ∨
    (∀ b rest, cs = b ++ '/' :: rest → ¬Closes b) ∧
      lexeme cs = ⟨.unknown, ['/'], cs, some ⟨.unterminatedRegex, ⟨0, Text.size ['/']⟩⟩⟩ := by
  cases hbody : body false cs with
  | some cut =>
    obtain ⟨read, rest⟩ := cut
    obtain ⟨b, rfl, rfl, hb⟩ := body_some reached_nil hbody
    exact .inl ⟨b, rest, rfl, hb, by simp [lexeme, hbody]⟩
  | none =>
    refine .inr ⟨fun b rest hcs => body_none reached_nil hbody hcs, ?_⟩
    rw [lexeme, hbody]
    rfl

/-- **What is read where a slash comes behind the trivia** in front of an operand. -/
theorem next_of_slash [Alphabet] {p : Place}
    (h : (Mode.exprStart.leading p.rest).rest = '/' :: cs) :
    (∃ b rest, cs = b ++ '/' :: rest ∧ IsBody [] b ∧ (p.next .exprStart).1.kind = .regex ∧
      (p.next .exprStart).1.text = '/' :: b ++ '/' :: rest.takeWhile isIdentContinue) ∨
    (∀ b rest, cs = b ++ '/' :: rest → ¬Closes b) ∧ (p.next .exprStart).1.kind = .unknown ∧
      (p.next .exprStart).1.text = ['/'] ∧
      (p.next .exprStart).1.flaw = some ⟨.unterminatedRegex, (p.next .exprStart).1.span⟩ := by
  have hread : Lexeme.read .exprStart (Mode.exprStart.leading p.rest).rest = lexeme cs := by
    rw [h]
    rfl
  have hkind : (p.next .exprStart).1.kind = (lexeme cs).kind := by
    rw [← hread]
    rfl
  have htext : (p.next .exprStart).1.text = (lexeme cs).text := by
    rw [← hread]
    rfl
  rcases lexeme_cases cs with ⟨b, rest, hcs, hb, heq⟩ | ⟨hnone, heq⟩
  · exact .inl ⟨b, rest, hcs, hb, by rw [hkind, heq], by rw [htext, heq]⟩
  · refine .inr ⟨hnone, by rw [hkind, heq], by rw [htext, heq], ?_⟩
    have hleading : (Mode.exprStart.leading p.rest).flaw = none := by
      by_contra hflaw
      obtain ⟨flaw, hflaw⟩ := Option.ne_none_iff_exists'.1 hflaw
      rw [Mode.leading_rest_of_flaw _ hflaw] at h
      cases h
    simp only [Place.next, Token.span, hread, hleading, heq]
    simp [Flaw.shift, Span.shift, Nat.add_comm]

/-- The body of a literal that is read is not empty: two slashes begin a comment. -/
theorem ne_nil_of_slash {p : Place} {b : Text}
    (h : (Mode.exprStart.leading p.rest).rest = '/' :: (b ++ '/' :: rest)) : b ≠ [] := by
  rintro rfl
  have hnone := Trivia.next?_rest (Trivia.shortens_leading? true) p.rest.length 0 (Nat.le_refl _)
  change Trivia.leading? true (Mode.exprStart.leading p.rest).rest = none at hnone
  rw [h] at hnone
  cases hnone

/-! ## Taking a literal apart -/

section

variable [Alphabet]

/-- **A literal is taken apart at its closing slash**, the last one it has. -/
theorem parts_eq {b flags : Text} (hname : ∀ c ∈ flags, isIdentContinue c = true) :
    Literal.patternFlags ('/' :: b ++ '/' :: flags) = flags ∧
      Literal.patternBody ('/' :: b ++ '/' :: flags) = b := by
  have hslash : ∀ c ∈ flags.reverse, (c != '/') = true := by
    intro c hc
    have hc := hname c (List.mem_reverse.1 hc)
    rw [bne_iff_ne]
    rintro rfl
    rw [isIdentContinue_ascii (by decide)] at hc
    cases hc
  have hflags : Literal.patternFlags ('/' :: b ++ '/' :: flags) = flags := by
    rw [Literal.patternFlags, if_pos (by simp), List.reverse_append, List.reverse_cons,
      List.append_assoc, List.takeWhile_append_of_pos hslash]
    simp
  refine ⟨hflags, ?_⟩
  have hlength : ('/' :: b ++ '/' :: flags).length - flags.length - 1 = ('/' :: b).length := by
    simp only [List.length_append, List.length_cons]
    omega
  rw [Literal.patternBody, if_pos (by simp), hflags, hlength, List.take_left]
  rfl

/-! ## Every literal -/

/-- A regular expression that is read as code is a body between slashes, and its flags. -/
theorem exists_parts {q : Place} {mode : Mode} (hcode : mode.isCode = true)
    (hkind : (q.next mode).1.kind = .regex) :
    ∃ b flags, (q.next mode).1.text = '/' :: b ++ '/' :: flags ∧ b ≠ [] ∧ IsBody [] b ∧
      ∀ c ∈ flags, isIdentContinue c = true := by
  have hregex : (Lexeme.read mode (mode.leading q.rest).rest).kind = .regex := hkind
  rcases Lexeme.read_literal hcode (.inr hregex) with ⟨quote, ds, -, -, hread⟩ | ⟨rfl, ds, hds, -⟩
  · rw [hread, Quotation.lexeme] at hregex
    split at hregex <;> cases hregex
  · rcases next_of_slash hds with ⟨b, rest, rfl, hb, -, htext⟩ | ⟨-, hunknown, -⟩
    · exact ⟨b, _, htext, ne_nil_of_slash hds, hb, fun c hc => (List.mem_takeWhile_imp hc)⟩
    · rw [hunknown] at hkind
      cases hkind

/-- **Literals end at their closing slash.**  Where a slash comes behind the trivia in front of an
operand, it opens a literal just if there is a slash behind it that closes one; the literal then
reaches to the first such slash and takes in all letters behind that, and else the opening slash
stands alone and is reported.  And the literals of a tree are taken apart at that slash, into a
body, which is not empty, and the flags. -/
theorem patterns_delimited :
    (∀ (p : Place) (cs : Text), (Mode.exprStart.leading p.rest).rest = '/' :: cs →
      ((p.next .exprStart).1.kind = .regex ↔ ∃ b rest, cs = b ++ '/' :: rest ∧ Closes b) ∧
      ((p.next .exprStart).1.kind = .regex → ∃ b rest, cs = b ++ '/' :: rest ∧ IsBody [] b ∧
        (p.next .exprStart).1.text = '/' :: b ++ '/' :: rest.takeWhile isIdentContinue) ∧
      ((p.next .exprStart).1.kind ≠ .regex → (p.next .exprStart).1.kind = .unknown ∧
        (p.next .exprStart).1.text = ['/'] ∧
        (p.next .exprStart).1.flaw = some ⟨.unterminatedRegex, (p.next .exprStart).1.span⟩)) ∧
    ∀ (limits : Limits) (text : Text) (parse : Parse), parseWithin limits text = .ok parse →
      ∀ n ∈ parse.tree.root.descendants, n.kind = .regexLiteral →
        ∃ b flags, parse.tree.textOf n = '/' :: b ++ '/' :: flags ∧ b ≠ [] ∧ IsBody [] b ∧
          Question.pattern.ask parse.tree n = .text b ∧
          Question.flags.ask parse.tree n = .text flags := by
  refine ⟨fun p cs h => ?_, fun limits text parse h n hn hkind => ?_⟩
  · rcases next_of_slash h with ⟨b, rest, hcs, hb, hkind, htext⟩ | ⟨hnone, hkind, htext, hflaw⟩
    · exact ⟨iff_of_true hkind ⟨b, rest, hcs, hb.closes⟩, fun _ => ⟨b, rest, hcs, hb, htext⟩,
        fun hne => absurd hkind hne⟩
    · have hne : (p.next .exprStart).1.kind ≠ .regex := by
        rw [hkind]
        decide
      exact ⟨iff_of_false hne fun ⟨b, rest, hcs, hb⟩ => hnone b rest hcs hb,
        fun hregex => absurd hregex hne,
        fun _ => ⟨hkind, htext, hflaw⟩⟩
  · obtain ⟨q, mode, hcode, hregex, htext⟩ :=
      quoted_of_parseWithin h hn (k := .regex) (by rw [hkind]; rfl)
    obtain ⟨b, flags, hparts, hne, hb, hname⟩ := exists_parts hcode hregex
    rw [hparts] at htext
    obtain ⟨hflags, hbody⟩ := parts_eq (b := b) hname
    exact ⟨b, flags, htext, hne, hb, by rw [Question.ask, htext, hbody],
      by rw [Question.ask, htext, hflags]⟩

end

/-- The only slash behind the first one is in a class; and with one more it is in the body. -/
theorem patterns_delimited_class :
    ((Place.start "/[/]".toList).next .exprStart).1.text = ['/'] ∧
    ∃ p, parseWithin {} "x = /[/]/g;".toList = .ok p ∧ ∃ n ∈ p.tree.root.descendants,
      ∃ b flags, p.tree.textOf n = '/' :: b ++ '/' :: flags ∧ b ≠ [] := by
  refine
    ⟨((patterns_delimited.1 (Place.start "/[/]".toList) "[/]".toList rfl).2.2 (by decide)).2.1, ?_⟩
  obtain ⟨p, hp, -⟩ := exists_parseWithin (Limits.endless_maxDepth 256) "x = /[/]/g;".toList
  obtain ⟨n, hn, hkind⟩ :=
    exists_descendant hp (fun n => n.kind == .regexLiteral) (by decide +kernel)
  obtain ⟨b, flags, htext, hne, -⟩ := patterns_delimited.2 _ _ p hp n hn (eq_of_beq hkind)
  exact ⟨p, hp, n, hn, b, flags, htext, hne⟩

end ActionScript.Pattern
