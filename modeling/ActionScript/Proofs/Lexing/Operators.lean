import Mathlib.Data.List.Nodup
import ActionScript.Proofs.Reading

/-!
# Operators are read as far as they go

After an operand, what starts with a sign is read as the longest operator that the text opens with.
The readings of a sign are listed longest first, so the first one that fits is the longest one that
fits; and the lists hold all operators that are spelled with the sign.

* `Code.Family.Ordered`, `Code.family?_ordered`: how the readings of a sign are listed.
* `Code.exists_reading`: the lists hold all operators.
* `Code.length_lt_of_mem_readings`: no reading that fits is longer than the one that is taken.
* `Place.next_operator_longest`: **signs are read as the longest operator that fits.**
-/

set_option autoImplicit false

namespace ActionScript

/-! ## Operators and their signs -/

namespace Kind

/-- The spelling of a kind as a text; that of a kind without one is empty. -/
def sign (k : Kind) : Text := (k.spelling.getD "").toList

/-- Punctuation and operators, without the marks that only tags have. -/
def operators : List Kind := punctuation.filter fun k => k != .ltSlash && k != .slashGt

/-- Operators are told apart by their spelling. -/
theorem sign_inj {k l : Kind} (hk : k ∈ operators) (hl : l ∈ operators) (h : k.sign = l.sign) :
    k = l := by
  have hnodup : (operators.map sign).Nodup := by decide +kernel
  exact List.inj_on_of_nodup_map hnodup hk hl h

/-- Of the operators that the text opens with, this is the longest one. -/
structure IsLongest (k : Kind) (cs : Text) : Prop where
  operator : k ∈ operators
  opens : k.sign <+: cs
  longest : ∀ l ∈ operators, l.sign <+: cs → l = k ∨ l.sign.length < k.sign.length

end Kind

namespace Code

/-- Is the character one that operators are made of? -/
def isSign (c : Char) : Bool := Kind.operators.any fun k => k.sign.contains c

/-- No other token starts with such a character, but for a number that starts with a point. -/
theorem isSign_cases {c : Char} (h : isSign c = true) :
    (family? c).isSome = true ∧ c.isDigit = false ∧ c ≠ '"' ∧ c ≠ '\'' := by
  have hall : (Kind.operators.all fun k => k.sign.all fun c =>
      (family? c).isSome && !c.isDigit && c != '"' && c != '\'') = true := by decide +kernel
  obtain ⟨k, hk, hc⟩ := List.any_eq_true.1 h
  have hchar := List.all_eq_true.1 (List.all_eq_true.1 hall k hk) c (List.contains_iff_mem.1 hc)
  simpa [and_assoc] using hchar

/-! ## Readings of a sign -/

/-- The readings of a family: what has to follow its sign, and the operator it is then. -/
def Family.readings (f : Family) : List (Text × Kind) := ([], f.single) :: f.longer

/-- The readings are operators that are spelled with the sign, and no longer one stands behind a
shorter one. -/
structure Family.Ordered (f : Family) (c : Char) : Prop where
  spelled : ∀ r ∈ f.readings, r.2 ∈ Kind.operators ∧ r.2.sign = c :: r.1
  sorted : f.longer.Pairwise fun a b => b.1.length ≤ a.1.length

theorem family?_ordered {c : Char} {f : Family} (h : family? c = some f) : f.Ordered c := by
  unfold family? at h
  split at h <;> simp only [Option.some.injEq, reduceCtorEq] at h <;> subst h <;>
    exact ⟨by decide +kernel, by decide⟩

/-- **Each operator is a reading of its first sign.** -/
theorem exists_reading {k : Kind} (hk : k ∈ Kind.operators) :
    ∃ c more f, k.sign = c :: more ∧ family? c = some f ∧ (more, k) ∈ f.readings := by
  have hall : (Kind.operators.all fun k => k.sign.head?.any fun c =>
      (family? c).any fun f => f.readings.contains (k.sign.tail, k)) = true := by decide +kernel
  obtain ⟨c, hc, hany⟩ := (Option.any_eq_true _ _).1 (List.all_eq_true.1 hall k hk)
  obtain ⟨f, hf, hmem⟩ := (Option.any_eq_true _ _).1 hany
  exact ⟨c, k.sign.tail, f, List.eq_cons_of_mem_head? hc, hf, List.contains_iff_mem.1 hmem⟩

/-- What is taken is a reading that fits. -/
theorem exists_operator_eq (f : Family) (c : Char) (cs : Text) :
    ∃ r ∈ f.readings, r.1 <+: cs ∧ (operator f c cs).kind = r.2 ∧
      (operator f c cs).text = c :: r.1 := by
  unfold operator
  split
  · rename_i more kind hfound
    have hprefix := List.find?_some hfound
    exact ⟨(more, kind), List.mem_cons_of_mem _ (List.mem_of_find?_eq_some hfound),
      List.isPrefixOf_iff_prefix.1 hprefix, rfl, rfl⟩
  · exact ⟨([], f.single), List.mem_cons_self, List.nil_prefix, rfl, rfl⟩

/-- **No reading that fits is longer than the one that is taken.** -/
theorem length_lt_of_mem_readings {f : Family} {c : Char} (hf : f.Ordered c) {cs : Text}
    {r : Text × Kind} (hr : r ∈ f.readings) (hfits : r.1 <+: cs) :
    r.1.length < (operator f c cs).text.length := by
  have hfits := List.isPrefixOf_iff_prefix.2 hfits
  unfold operator
  split
  · rename_i more kind hfound
    rw [List.length_cons, Nat.lt_succ_iff]
    obtain ⟨-, before, behind, hlist, hbefore⟩ := List.find?_eq_some_iff_append.1 hfound
    have hsorted := hf.sorted
    rw [hlist, List.pairwise_append, List.pairwise_cons] at hsorted
    rcases List.mem_cons.1 hr with rfl | hr
    · exact Nat.zero_le _
    · rw [hlist, List.mem_append, List.mem_cons] at hr
      rcases hr with hr | rfl | hr
      · have hnot := hbefore r hr
        simp only [hfits, Bool.not_true, Bool.false_eq_true] at hnot
      · exact Nat.le_refl _
      · exact hsorted.2.1.1 r hr
  · rename_i hnone
    rcases List.mem_cons.1 hr with rfl | hr
    · exact Nat.one_pos
    · exact absurd hfits (List.find?_eq_none.1 hnone r hr)

/-- The reading that is taken is the longest operator that the text opens with. -/
theorem operator_isLongest {f : Family} {c : Char} (hf : family? c = some f) (cs : Text) :
    (operator f c cs).kind.IsLongest (c :: cs) ∧
      (operator f c cs).text = (operator f c cs).kind.sign := by
  have hordered := family?_ordered hf
  obtain ⟨r, hr, hfits, hkind, htext⟩ := exists_operator_eq f c cs
  obtain ⟨hoperator, hsign⟩ := hordered.spelled r hr
  rw [← hkind] at hoperator hsign
  have hopens : (operator f c cs).kind.sign <+: c :: cs := by
    rw [hsign]
    exact List.cons_prefix_cons.2 ⟨rfl, hfits⟩
  refine ⟨⟨hoperator, hopens, fun l hl hlfits => ?_⟩, htext.trans hsign.symm⟩
  obtain ⟨d, more, g, hlsign, hg, hmem⟩ := exists_reading hl
  rw [hlsign] at hlfits
  obtain ⟨rfl, hmore⟩ := List.cons_prefix_cons.1 hlfits
  obtain rfl : g = f := Option.some.inj (hg.symm.trans hf)
  have hlt := length_lt_of_mem_readings hordered hmem hmore
  rw [htext, ← hsign] at hlt
  rcases Nat.lt_or_eq_of_le (Nat.succ_le_of_lt hlt) with hlt | heq
  · right
    rw [hlsign]
    exact hlt
  · left
    refine Kind.sign_inj hl hoperator ?_
    have hlen : l.sign.length = (operator g d cs).kind.sign.length := by
      rw [hlsign]
      exact heq
    have hlopens : l.sign <+: d :: cs := hlsign ▸ hlfits
    exact (List.prefix_of_prefix_length_le hlopens hopens (Nat.le_of_eq hlen)).eq_of_length hlen

/-- After an operand a sign opens an operator, unless it is the point of a number. -/
theorem lexeme_of_isSign [Alphabet] {c : Char} {cs : Text} (hsign : isSign c = true)
    (hnumber : ¬(c = '.' ∧ Number.startsWithDigit cs = true)) :
    ∃ f, family? c = some f ∧ lexeme .operator (c :: cs) = operator f c cs := by
  obtain ⟨hsome, hdigit, hdouble, hsingle⟩ := isSign_cases hsign
  obtain ⟨f, hf⟩ := Option.isSome_iff_exists.1 hsome
  refine ⟨f, hf, ?_⟩
  have hpoint : (c == '.' && Number.startsWithDigit cs) = false := by
    rw [Bool.eq_false_iff]
    intro h
    rw [Bool.and_eq_true, beq_iff_eq] at h
    exact hnumber h
  simp [lexeme, hdigit, hpoint, hdouble, hsingle, familyIn?, hf]

end Code

/-- **Signs are read as the longest operator that fits.**  If, behind the trivia at a place, the
text goes on with a character that operators are made of, and not with a point and a digit, then
after an operand the longest operator is read that the text opens with there. -/
theorem Place.next_operator_longest [Alphabet] (place : Place) {c : Char} {cs : Text}
    (hrest : (Mode.operator.leading place.rest).rest = c :: cs) (hsign : Code.isSign c = true)
    (hnumber : ¬(c = '.' ∧ Number.startsWithDigit cs = true)) :
    (place.next .operator).1.kind.IsLongest (c :: cs) ∧
      (place.next .operator).1.text = (place.next .operator).1.kind.sign := by
  obtain ⟨f, hf, hlexeme⟩ := Code.lexeme_of_isSign hsign hnumber
  have hread : Lexeme.read .operator (Mode.operator.leading place.rest).rest =
      Code.operator f c cs := by
    rw [hrest]
    exact hlexeme
  have hlongest := Code.operator_isLongest hf cs
  rw [← hread] at hlongest
  exact hlongest

/-- Behind a comment, all but the last sign make up one operator. -/
theorem Place.next_operator_longest_shift :
    ((Place.start "/*<*/ >>>==".toList).next .operator).1.kind = .ushrEq ∧
      Kind.IsLongest .ushrEq ">>>==".toList ∧
      ((Place.start "/*<*/ >>>==".toList).next .operator).1.text = ">>>=".toList :=
  ⟨by decide,
    @Place.next_operator_longest _ (Place.start "/*<*/ >>>==".toList) '>' ">>==".toList (by decide)
    (by decide +kernel) (by decide)⟩

end ActionScript
