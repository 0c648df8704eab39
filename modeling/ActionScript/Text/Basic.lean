/-!
# Text

A source text is a list of characters.  Offsets and lengths count UTF-8 bytes, so a text can only
be cut where a character ends.

* `Text.splitAt?_eq_some`: a cut gives back the text, and the first part has the size asked for.
* `Text.isSome_splitAt?_iff`: it can be cut at its boundaries.
* `Text.splitPast_append`: a search for a mark loses nothing.
-/

set_option autoImplicit false

namespace ActionScript

/-- A text, as its characters. -/
abbrev Text := List Char

namespace Text

/-- The number of UTF-8 bytes of a text. -/
def size : Text → Nat
  | [] => 0
  | c :: cs => c.utf8Size + size cs

/-- Some start of the text has so many bytes. -/
def IsBoundary (t : Text) (n : Nat) : Prop := ∃ before after, t = before ++ after ∧ before.size = n

/-- Cuts a text after `n` bytes.  There is no cut past the end or inside a character. -/
def splitAt? : Text → Nat → Option (Text × Text)
  | cs, 0 => some ([], cs)
  | [], _ + 1 => none
  | c :: cs, n + 1 =>
    if c.utf8Size ≤ n + 1 then
      (splitAt? cs (n + 1 - c.utf8Size)).map fun (before, after) => (c :: before, after)
    else none

/-- Cuts a text behind the first occurrence of `mark`. -/
def splitPast (mark : Text) : Text → Option (Text × Text)
  | [] => if mark.isEmpty then some ([], []) else none
  | c :: cs =>
    if mark.isPrefixOf (c :: cs) then some (mark, (c :: cs).drop mark.length)
    else (splitPast mark cs).map fun (before, after) => (c :: before, after)

@[simp]
theorem size_nil : size [] = 0 := rfl

@[simp]
theorem size_cons (c : Char) (cs : Text) : size (c :: cs) = c.utf8Size + size cs := rfl

@[simp]
theorem size_append (a b : Text) : size (a ++ b) = size a + size b := by
  induction a with
  | nil => simp
  | cons c a ih => simp [ih, Nat.add_assoc]

/-- A non-empty text has a positive size. -/
theorem size_pos {t : Text} (h : t ≠ []) : 0 < size t := by
  cases t with
  | nil => exact absurd rfl h
  | cons c cs => have := c.utf8Size_pos; simp only [size_cons]; omega

theorem eq_nil_of_size {t : Text} (h : t.size = 0) : t = [] := by
  cases t with
  | nil => rfl
  | cons c cs => exact absurd h (Nat.ne_of_gt (size_pos (List.cons_ne_nil c cs)))

/-- A boundary behind a start of the text is one of the rest. -/
theorem IsBoundary.of_append {a b : Text} {n : Nat} (h : (a ++ b).IsBoundary (a.size + n)) :
    b.IsBoundary n := by
  obtain ⟨before, after, heq, hsize⟩ := h
  rcases List.append_eq_append_iff.1 heq with ⟨c, rfl, hb⟩ | ⟨c, rfl, rfl⟩
  · rw [size_append] at hsize
    exact ⟨c, after, hb, by omega⟩
  · -- then nothing is left between the two
    rw [size_append] at hsize
    obtain rfl : c = [] := eq_nil_of_size (by omega)
    refine ⟨[], _, rfl, ?_⟩
    rw [size_nil] at hsize ⊢
    omega

/-- **A cut is exact**: the parts make up the text and the first one has `n` bytes. -/
theorem splitAt?_eq_some {t before after : Text} {n : Nat}
    (h : splitAt? t n = some (before, after)) : t = before ++ after ∧ size before = n := by
  induction t generalizing n before with
  | nil =>
    cases n with
    | zero => simp [splitAt?] at h; simp [h.1, h.2]
    | succ n => simp [splitAt?] at h
  | cons c cs ih =>
    cases n with
    | zero => simp [splitAt?] at h; simp [h.1, h.2]
    | succ n =>
      simp only [splitAt?] at h
      split at h
      · rename_i hc
        simp only [Option.map_eq_some_iff, Prod.mk.injEq] at h
        obtain ⟨⟨b, a⟩, hb, rfl, rfl⟩ := h
        obtain ⟨rfl, hs⟩ := ih hb
        refine ⟨rfl, ?_⟩
        simp only [size_cons, hs]
        omega
      · exact absurd h (by simp)

/-- Every cut between two characters is found. -/
theorem splitAt?_append (before after : Text) :
    splitAt? (before ++ after) (size before) = some (before, after) := by
  induction before with
  | nil => cases after <;> rfl
  | cons c cs ih =>
    have hc := c.utf8Size_pos
    obtain ⟨n, hn⟩ : ∃ n, size (c :: cs) = n + 1 := ⟨size (c :: cs) - 1, by simp; omega⟩
    have hle : c.utf8Size ≤ n + 1 := by simp at hn; omega
    have hsub : n + 1 - c.utf8Size = size cs := by simp at hn; omega
    rw [hn, List.cons_append, splitAt?, if_pos hle, hsub, ih]
    rfl

/-- A text can be cut at its boundaries, and nowhere else. -/
theorem isSome_splitAt?_iff {t : Text} {n : Nat} :
    (splitAt? t n).isSome = true ↔ t.IsBoundary n := by
  constructor
  · intro h
    obtain ⟨⟨before, after⟩, hcut⟩ := Option.isSome_iff_exists.1 h
    exact ⟨before, after, splitAt?_eq_some hcut⟩
  · rintro ⟨before, after, rfl, rfl⟩
    rw [splitAt?_append]
    rfl

/-- A text that starts with `a` is `a` and what follows it. -/
theorem append_drop_of_isPrefixOf {a t : Text} (h : a.isPrefixOf t = true) :
    a ++ t.drop a.length = t :=
  List.prefix_iff_eq_append.mp (List.isPrefixOf_iff_prefix.mp h)

/-- **A search loses nothing**: the part up to the mark and the part behind it make up the text. -/
theorem splitPast_append {mark t before after : Text}
    (h : splitPast mark t = some (before, after)) : t = before ++ after := by
  induction t generalizing before with
  | nil => simp [splitPast] at h; simp [h.2.1, h.2.2]
  | cons c cs ih =>
    simp only [splitPast] at h
    split at h
    · rename_i hm
      simp only [Option.some.injEq, Prod.mk.injEq] at h
      obtain ⟨rfl, rfl⟩ := h
      have := List.isPrefixOf_iff_prefix.mp hm
      obtain ⟨r, hr⟩ := this
      rw [← hr]
      simp
    · simp only [Option.map_eq_some_iff, Prod.mk.injEq] at h
      obtain ⟨⟨b, a⟩, hb, rfl, rfl⟩ := h
      rw [ih hb]
      rfl

/-- A search ends with the mark. -/
theorem suffix_of_splitPast {mark t before after : Text}
    (h : splitPast mark t = some (before, after)) : mark <:+ before := by
  induction t generalizing before with
  | nil =>
    rw [splitPast] at h
    split at h
    · rename_i hempty
      rw [List.isEmpty_iff.1 hempty]
      exact List.nil_suffix
    · cases h
  | cons c cs ih =>
    rw [splitPast] at h
    split at h
    · cases h
      exact List.suffix_refl _
    · obtain ⟨⟨read, rest⟩, hread, hcut⟩ := Option.map_eq_some_iff.1 h
      cases hcut
      exact (ih hread).trans (List.suffix_cons c read)

end Text

/-- A stretch of text, from the byte offset `start` up to `stop`. -/
structure Span where
  start : Nat
  stop : Nat
  deriving DecidableEq, Repr, Inhabited

namespace Span

/-- The empty span at an offset. -/
def point (offset : Nat) : Span := ⟨offset, offset⟩

/-- Moves a span to the right. -/
def shift (s : Span) (n : Nat) : Span := ⟨s.start + n, s.stop + n⟩

/-- Does `s` hold all of `t`? -/
def contains (s t : Span) : Bool := s.start ≤ t.start && t.stop ≤ s.stop

/-- The smallest span that holds both. -/
def cover (s t : Span) : Span := ⟨min s.start t.start, max s.stop t.stop⟩

/-- The span is a stretch of the text. -/
structure Within (s : Span) (text : Text) : Prop where
  le : s.start ≤ s.stop
  start : text.IsBoundary s.start
  stop : text.IsBoundary s.stop

end Span

end ActionScript
