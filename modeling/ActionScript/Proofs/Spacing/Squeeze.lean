import ActionScript.Proofs.Printing.Reading

/-!
# Squeezed texts

A text is squeezed by putting a single space for each run of blanks.  Two texts that differ in such
runs only are the same when squeezed, and what a scanner does on a text it does on the squeezed
text, if it either stops at blanks or passes over them.

* `Text.squeeze`, `Text.squeeze_append`: squeezing goes piece by piece, unless a run is torn apart.
* `Text.dropWhile_squeeze_of_stops`, `Text.dropWhile_squeeze_of_passes`, `Text.drop_squeeze`,
  `Text.splitPast_squeeze`: **cutting and squeezing can be done in either order.**
* `Text.eq_of_map_squeeze`: pieces of one text that are the same when squeezed are the same, if no
  run is torn apart.
-/

set_option autoImplicit false

namespace ActionScript

namespace Text

/-- Does a blank come first? -/
def opensBlank (cs : Text) : Bool := cs.head?.any isBlank

/-- Does a blank come last? -/
def closesBlank (cs : Text) : Bool := cs.getLast?.any isBlank

/-- A text with a single space for each run of blanks. -/
def squeeze : Text → Text
  | [] => []
  | c :: cs =>
    if isBlank c then if opensBlank cs then squeeze cs else ' ' :: squeeze cs else c :: squeeze cs

variable {c : Char} {a b cs ds : Text}

@[simp] theorem squeeze_nil : squeeze [] = [] := rfl

@[simp] theorem opensBlank_nil : opensBlank [] = false := rfl

@[simp] theorem opensBlank_cons : opensBlank (c :: cs) = isBlank c := rfl

theorem isBlank_space : isBlank ' ' = true := by decide

/-- A blank is no sign. -/
theorem ne_of_isBlank {d : Char} (hc : isBlank c = true) (hd : isBlank d = false) : c ≠ d := by
  rintro rfl
  rw [hd] at hc
  cases hc

theorem squeeze_cons_of_not (h : isBlank c = false) : squeeze (c :: cs) = c :: squeeze cs := by
  simp [squeeze, h]

/-- Within a run a blank makes no difference. -/
theorem squeeze_cons_within (hc : isBlank c = true) (h : opensBlank cs = true) :
    squeeze (c :: cs) = squeeze cs := by
  simp [squeeze, hc, h]

theorem squeeze_cons_last (hc : isBlank c = true) (h : opensBlank cs = false) :
    squeeze (c :: cs) = ' ' :: squeeze cs := by
  simp [squeeze, hc, h]

theorem squeeze_cons_cons_within {d : Char} (hc : isBlank c = true) (hd : isBlank d = true) :
    squeeze (c :: d :: cs) = squeeze (d :: cs) := squeeze_cons_within hc hd

theorem squeeze_cons_cons_last {d : Char} (hc : isBlank c = true) (hd : isBlank d = false) :
    squeeze (c :: d :: cs) = ' ' :: squeeze (d :: cs) := squeeze_cons_last hc hd

@[simp] theorem opensBlank_squeeze (cs : Text) : opensBlank (squeeze cs) = opensBlank cs := by
  fun_induction squeeze cs with
  | case1 => rfl
  | case2 c cs hc hopens ih => rw [ih, hopens, opensBlank_cons, hc]
  | case3 c cs hc hopens ih => rw [opensBlank_cons, opensBlank_cons, hc, isBlank_space]
  | case4 c cs hc ih => rw [opensBlank_cons, opensBlank_cons]

/-- A run of blanks leaves a space in front of what stands behind it. -/
theorem squeeze_cons_of_blank (h : isBlank c = true) (cs : Text) :
    squeeze (c :: cs) = ' ' :: squeeze (cs.dropWhile isBlank) := by
  induction cs generalizing c with
  | nil => exact squeeze_cons_last h rfl
  | cons d cs ih =>
    cases hd : isBlank d with
    | true => rw [squeeze_cons_cons_within h hd, ih hd, List.dropWhile_cons_of_pos hd]
    | false =>
      rw [squeeze_cons_cons_last h hd, List.dropWhile_cons_of_neg (by simp [hd])]

theorem squeeze_eq_nil_iff : squeeze cs = [] ↔ cs = [] := by
  cases cs with
  | nil => simp
  | cons c cs =>
    cases hc : isBlank c with
    | true =>
      simp [squeeze_cons_of_blank hc]
    | false => simp [squeeze_cons_of_not hc]

/-- A character that is no blank comes first in both or in neither. -/
theorem head?_squeeze_eq_some (h : isBlank c = false) :
    (squeeze cs).head? = some c ↔ cs.head? = some c := by
  cases cs with
  | nil => rfl
  | cons d cs =>
    cases hd : isBlank d with
    | true => simp [squeeze_cons_of_blank hd, ne_of_isBlank isBlank_space h, ne_of_isBlank hd h]
    | false => simp [squeeze_cons_of_not hd]

theorem any_head?_squeeze {p : Char → Bool} (hp : ∀ c, isBlank c = true → p c = false) (cs : Text) :
    (squeeze cs).head?.any p = cs.head?.any p := by
  cases cs with
  | nil => rfl
  | cons c cs =>
    cases hc : isBlank c with
    | true => simp [squeeze_cons_of_blank hc, hp c hc, hp ' ' isBlank_space]
    | false => rw [squeeze_cons_of_not hc, List.head?_cons, List.head?_cons]

theorem tail_squeeze (h : isBlank c = false) (hhead : cs.head? = some c) :
    (squeeze cs).tail = squeeze cs.tail := by
  obtain ⟨rest, rfl⟩ := List.head?_eq_some_iff.1 hhead
  rw [squeeze_cons_of_not h]
  rfl

theorem length_squeeze_le (cs : Text) : (squeeze cs).length ≤ cs.length := by
  fun_induction squeeze cs with
  | case1 => exact Nat.le_refl _
  | case2 c cs hc hopens ih => exact Nat.le_succ_of_le ih
  | case3 c cs hc hopens ih => exact Nat.succ_le_succ ih
  | case4 c cs hc ih => exact Nat.succ_le_succ ih

/-- A text without blanks stays as it is. -/
theorem squeeze_of_solid (h : cs.any isBlank = false) : squeeze cs = cs := by
  induction cs with
  | nil => rfl
  | cons c cs ih =>
    rw [List.any_cons, Bool.or_eq_false_iff] at h
    rw [squeeze_cons_of_not h.1, ih h.2]

/-- A run of blanks is squeezed into a space. -/
theorem squeeze_blanks (hne : cs ≠ []) (h : cs.all isBlank = true) : squeeze cs = [' '] := by
  induction cs with
  | nil => exact absurd rfl hne
  | cons c cs ih =>
    rw [List.all_cons, Bool.and_eq_true] at h
    cases cs with
    | nil => exact squeeze_cons_last h.1 rfl
    | cons d cs =>
      have hd : isBlank d = true := by
        rw [List.all_cons, Bool.and_eq_true] at h
        exact h.2.1
      rw [squeeze_cons_cons_within h.1 hd]
      exact ih (List.cons_ne_nil _ _) h.2

/-! ## Pieces -/

theorem closesBlank_cons_cons (c d : Char) (cs : Text) :
    closesBlank (c :: d :: cs) = closesBlank (d :: cs) := by
  simp [closesBlank, List.getLast?_cons_cons]

/-- **Squeezing goes piece by piece**, if no run of blanks is torn apart. -/
theorem squeeze_append (h : a.closesBlank = true → b.opensBlank = false) :
    squeeze (a ++ b) = squeeze a ++ squeeze b := by
  induction a with
  | nil => rfl
  | cons c a ih =>
    rw [List.cons_append]
    cases a with
    | nil =>
      cases hc : isBlank c with
      | true =>
        have hb : opensBlank b = false := h (by simp [closesBlank, hc])
        rw [List.nil_append, squeeze_cons_last hc hb, squeeze_cons_last hc rfl]
        rfl
      | false =>
        rw [List.nil_append, squeeze_cons_of_not hc, squeeze_cons_of_not hc]
        rfl
    | cons d a =>
      rw [closesBlank_cons_cons] at h
      have hopens : opensBlank (d :: a ++ b) = isBlank d := rfl
      cases hc : isBlank c with
      | true =>
        cases hd : isBlank d with
        | true =>
          rw [squeeze_cons_within hc (hopens.trans hd), squeeze_cons_cons_within hc hd, ih h]
        | false =>
          rw [squeeze_cons_last hc (hopens.trans hd), squeeze_cons_cons_last hc hd, ih h,
            List.cons_append]
      | false => rw [squeeze_cons_of_not hc, squeeze_cons_of_not hc, ih h, List.cons_append]

/-- Behind a piece without blanks at its end, what has none closes with none. -/
theorem closesBlank_append_solid (ha : a.closesBlank = false) (hb : b.any isBlank = false) :
    closesBlank (a ++ b) = false := by
  rw [closesBlank, List.getLast?_append]
  cases hlast : b.getLast? with
  | none => exact ha
  | some c =>
    have hc := List.any_eq_false.1 hb c (List.mem_of_getLast? hlast)
    simpa using hc

theorem closesBlank_of_solid (h : a.any isBlank = false) : a.closesBlank = false :=
  closesBlank_append_solid (a := []) rfl h

/-- What has no blanks can be left aside. -/
theorem squeeze_solid_append (h : a.any isBlank = false) (b : Text) :
    squeeze (a ++ b) = a ++ squeeze b := by
  have hcloses := closesBlank_of_solid h
  rw [squeeze_append (by simp [hcloses]), squeeze_of_solid h]

/-- Blanks that are no line breaks, say, make no difference to whether there is one. -/
theorem any_squeeze_of_stops {p : Char → Bool} (hp : ∀ c, isBlank c = true → p c = false)
    (cs : Text) : (squeeze cs).any p = cs.any p := by
  fun_induction squeeze cs with
  | case1 => rfl
  | case2 c cs hc hopens ih => rw [ih, List.any_cons, hp c hc, Bool.false_or]
  | case3 c cs hc hopens ih => rw [List.any_cons, List.any_cons, hp c hc, hp ' ' isBlank_space, ih]
  | case4 c cs hc ih => rw [List.any_cons, List.any_cons, ih]

theorem closesBlank_cons (hne : cs ≠ []) : closesBlank (c :: cs) = closesBlank cs := by
  obtain ⟨d, cs, rfl⟩ := List.exists_cons_of_ne_nil hne
  exact closesBlank_cons_cons c d cs

@[simp] theorem closesBlank_squeeze (cs : Text) : closesBlank (squeeze cs) = closesBlank cs := by
  fun_induction squeeze cs with
  | case1 => rfl
  | case2 c cs hc hopens ih =>
    have hne : cs ≠ [] := by
      rintro rfl
      cases hopens
    rw [ih, closesBlank_cons hne]
  | case3 c cs hc hopens ih =>
    by_cases hne : cs = []
    · subst hne
      simp [closesBlank, hc, isBlank_space]
    · rw [closesBlank_cons hne, closesBlank_cons (squeeze_eq_nil_iff.not.2 hne), ih]
  | case4 c cs hc ih =>
    by_cases hne : cs = []
    · subst hne
      simp [closesBlank]
    · rw [closesBlank_cons hne, closesBlank_cons (squeeze_eq_nil_iff.not.2 hne), ih]

/-- What is left behind a piece tells the squeezed piece. -/
theorem eq_squeeze_of_append {text text' rest : Text}
    (h : text' ++ squeeze rest = squeeze (text ++ rest))
    (hparted : text.closesBlank = true → rest.opensBlank = false) : text' = squeeze text := by
  rw [squeeze_append hparted] at h
  exact List.append_cancel_right h

/-! ## Cutting -/

section
variable {p : Char → Bool}

/-- A scan that stops at blanks. -/
theorem takeWhile_squeeze_of_stops (hp : ∀ c, isBlank c = true → p c = false) (cs : Text) :
    (squeeze cs).takeWhile p = cs.takeWhile p := by
  induction cs with
  | nil => rfl
  | cons c cs ih =>
    cases hc : isBlank c with
    | true =>
      simp [squeeze_cons_of_blank hc, hp c hc, hp ' ' isBlank_space]
    | false => rw [squeeze_cons_of_not hc, List.takeWhile_cons, List.takeWhile_cons, ih]

theorem dropWhile_squeeze_of_stops (hp : ∀ c, isBlank c = true → p c = false) (cs : Text) :
    (squeeze cs).dropWhile p = squeeze (cs.dropWhile p) := by
  induction cs with
  | nil => rfl
  | cons c cs ih =>
    cases hc : isBlank c with
    | true =>
      rw [List.dropWhile_cons_of_neg (by simp [hp c hc]), squeeze_cons_of_blank hc,
        List.dropWhile_cons_of_neg (by simp [hp ' ' isBlank_space])]
    | false =>
      rw [squeeze_cons_of_not hc]
      cases hpc : p c with
      | true => rw [List.dropWhile_cons_of_pos hpc, List.dropWhile_cons_of_pos hpc, ih]
      | false =>
        rw [List.dropWhile_cons_of_neg (by simp [hpc]), List.dropWhile_cons_of_neg (by simp [hpc]),
          squeeze_cons_of_not hc]

/-- A scan that passes over blanks. -/
theorem dropWhile_squeeze_of_passes (hp : ∀ c, isBlank c = true → p c = true) (cs : Text) :
    (squeeze cs).dropWhile p = squeeze (cs.dropWhile p) := by
  induction cs with
  | nil => rfl
  | cons c cs ih =>
    cases hc : isBlank c with
    | true =>
      rw [List.dropWhile_cons_of_pos (hp c hc)]
      cases hopens : opensBlank cs with
      | true => rw [squeeze_cons_within hc hopens, ih]
      | false =>
        rw [squeeze_cons_last hc hopens, List.dropWhile_cons_of_pos (hp ' ' isBlank_space), ih]
    | false =>
      rw [squeeze_cons_of_not hc]
      cases hpc : p c with
      | true => rw [List.dropWhile_cons_of_pos hpc, List.dropWhile_cons_of_pos hpc, ih]
      | false =>
        rw [List.dropWhile_cons_of_neg (by simp [hpc]), List.dropWhile_cons_of_neg (by simp [hpc]),
          squeeze_cons_of_not hc]

theorem opensBlank_dropWhile (hp : ∀ c, isBlank c = true → p c = true) (cs : Text) :
    opensBlank (cs.dropWhile p) = false := by
  induction cs with
  | nil => rfl
  | cons c cs ih =>
    cases hpc : p c with
    | true => rw [List.dropWhile_cons_of_pos hpc, ih]
    | false =>
      rw [List.dropWhile_cons_of_neg (by simp [hpc]), opensBlank_cons]
      refine Bool.eq_false_iff.2 fun hc => ?_
      rw [hp c hc] at hpc
      cases hpc

theorem takeWhile_squeeze_of_passes (hp : ∀ c, isBlank c = true → p c = true) (cs : Text) :
    (squeeze cs).takeWhile p = squeeze (cs.takeWhile p) := by
  refine eq_squeeze_of_append ?_ fun _ => opensBlank_dropWhile hp cs
  rw [← dropWhile_squeeze_of_passes hp, List.takeWhile_append_dropWhile,
    List.takeWhile_append_dropWhile]

end

section
variable {mark : Text}

/-- A mark without blanks comes next in both or in neither. -/
theorem isPrefixOf_squeeze (h : mark.any isBlank = false) (cs : Text) :
    mark.isPrefixOf (squeeze cs) = mark.isPrefixOf cs := by
  induction mark generalizing cs with
  | nil => rfl
  | cons m mark ih =>
    rw [List.any_cons, Bool.or_eq_false_iff] at h
    cases cs with
    | nil => rfl
    | cons c cs =>
      cases hc : isBlank c with
      | true =>
        have hne (d : Char) (hd : isBlank d = true) : (m == d) = false :=
          beq_false_of_ne (ne_of_isBlank hd h.1).symm
        rw [squeeze_cons_of_blank hc, List.isPrefixOf, List.isPrefixOf, hne c hc,
          hne ' ' isBlank_space]
        rfl
      | false => rw [squeeze_cons_of_not hc, List.isPrefixOf, List.isPrefixOf, ih h.2]

theorem drop_squeeze (h : mark.any isBlank = false) {cs : Text}
    (hmark : mark.isPrefixOf cs = true) :
    (squeeze cs).drop mark.length = squeeze (cs.drop mark.length) := by
  obtain ⟨rest, rfl⟩ := List.isPrefixOf_iff_prefix.1 hmark
  rw [squeeze_solid_append h, List.drop_left, List.drop_left]

/-- What ends with a mark without blanks closes with none. -/
theorem closesBlank_of_suffix (h : mark.any isBlank = false) (hne : mark ≠ []) {before : Text}
    (hsuffix : mark <:+ before) : before.closesBlank = false := by
  obtain ⟨front, rfl⟩ := hsuffix
  rw [closesBlank, List.getLast?_append_of_ne_nil _ hne, ← closesBlank]
  exact closesBlank_of_solid h

/-- The search goes past blanks. -/
theorem splitPast_blank (h : mark.any isBlank = false) (hne : mark ≠ []) (hc : isBlank c = true)
    (cs : Text) : (splitPast mark (c :: cs)).map Prod.snd = (splitPast mark cs).map Prod.snd := by
  obtain ⟨m, ms, rfl⟩ := List.exists_cons_of_ne_nil hne
  rw [List.any_cons, Bool.or_eq_false_iff] at h
  have hmc : m ≠ c := (ne_of_isBlank hc h.1).symm
  simp [splitPast, List.isPrefixOf, hmc, Function.comp_def]

theorem map_snd_splitPast_squeeze (h : mark.any isBlank = false) (hne : mark ≠ []) (cs : Text) :
    (splitPast mark (squeeze cs)).map Prod.snd =
      ((splitPast mark cs).map Prod.snd).map squeeze := by
  have hempty : mark.isEmpty = false := by simpa using hne
  fun_induction squeeze cs with
  | case1 => simp [splitPast, hempty]
  | case2 c cs hc hopens ih => rw [splitPast_blank h hne hc, ih]
  | case3 c cs hc hopens ih =>
    rw [splitPast_blank h hne hc, splitPast_blank h hne isBlank_space, ih]
  | case4 c cs hc ih =>
    have hsame : squeeze (c :: cs) = c :: squeeze cs := squeeze_cons_of_not (by simpa using hc)
    have hmark := isPrefixOf_squeeze h (c :: cs)
    rw [hsame] at hmark
    rw [splitPast, splitPast, hmark]
    split
    · rename_i hpre
      rw [← hsame, drop_squeeze h hpre]
      rfl
    · simpa [Function.comp_def] using ih

/-- **A search for a mark without blanks ends at the same place.** -/
theorem splitPast_squeeze (h : mark.any isBlank = false) (hne : mark ≠ []) (cs : Text) :
    splitPast mark (squeeze cs) =
      (splitPast mark cs).map fun cut => (squeeze cut.1, squeeze cut.2) := by
  have hrest := map_snd_splitPast_squeeze h hne cs
  cases hsplit : splitPast mark cs with
  | none =>
    rw [hsplit] at hrest
    simpa using hrest
  | some cut =>
    obtain ⟨before, after⟩ := cut
    rw [hsplit, Option.map_some, Option.map_some, Option.map_eq_some_iff] at hrest
    obtain ⟨⟨before', after'⟩, hsplit', rfl⟩ := hrest
    have happend := splitPast_append hsplit'
    have hcloses := closesBlank_of_suffix h hne (suffix_of_splitPast hsplit)
    rw [splitPast_append hsplit] at happend
    rw [hsplit', eq_squeeze_of_append happend.symm (by simp [hcloses])]
    rfl

end

/-! ## Pieces of one text -/

/-- A torn run is counted twice. -/
theorem length_squeeze_append_torn (ha : a.closesBlank = true) (hb : b.opensBlank = true) :
    (squeeze (a ++ b)).length + 1 = (squeeze a).length + (squeeze b).length := by
  induction a with
  | nil => cases ha
  | cons c a ih =>
    rw [List.cons_append]
    cases a with
    | nil =>
      have hc : isBlank c = true := by simpa [closesBlank] using ha
      rw [List.nil_append, squeeze_cons_within hc hb, squeeze_cons_last hc rfl]
      simp [Nat.add_comm]
    | cons d a =>
      rw [closesBlank_cons_cons] at ha
      have hopens : opensBlank (d :: a ++ b) = isBlank d := rfl
      have hrest := ih ha
      cases hc : isBlank c with
      | true =>
        cases hd : isBlank d with
        | true =>
          rw [squeeze_cons_within hc (hopens.trans hd), squeeze_cons_cons_within hc hd]
          exact hrest
        | false =>
          rw [squeeze_cons_last hc (hopens.trans hd), squeeze_cons_cons_last hc hd,
            List.length_cons, List.length_cons]
          omega
      | false =>
        rw [squeeze_cons_of_not hc, squeeze_cons_of_not hc, List.length_cons, List.length_cons]
        omega

/-- A piece that is left as it is in front of the squeezed rest is squeezed already. -/
theorem squeeze_eq_of_append {text rest : Text}
    (h : text ++ squeeze rest = squeeze (text ++ rest)) : squeeze text = text := by
  by_cases hcloses : text.closesBlank = true
  · cases hopens : rest.opensBlank with
    | true =>
      have hcount := length_squeeze_append_torn hcloses hopens
      have hle := length_squeeze_le text
      rw [← h, List.length_append] at hcount
      omega
    | false => exact (eq_squeeze_of_append h fun _ => hopens).symm
  · exact (eq_squeeze_of_append h fun htrue => absurd htrue hcloses).symm

theorem length_squeeze_append_le (a b : Text) :
    (squeeze (a ++ b)).length ≤ (squeeze a).length + (squeeze b).length := by
  by_cases htorn : a.closesBlank = true ∧ b.opensBlank = true
  · have hcount := length_squeeze_append_torn htorn.1 htorn.2
    omega
  · have hparted (ha : a.closesBlank = true) : b.opensBlank = false := by simpa [ha] using htorn
    exact Nat.le_of_eq (by rw [squeeze_append hparted, List.length_append])

/-- Pieces are squeezed to no less than the whole. -/
theorem length_squeeze_flatten_le (ts : List Text) :
    (squeeze ts.flatten).length ≤ (ts.map squeeze).flatten.length := by
  induction ts with
  | nil => exact Nat.le_refl _
  | cons t ts ih =>
    rw [List.flatten_cons, List.map_cons, List.flatten_cons, List.length_append]
    exact Nat.le_trans (length_squeeze_append_le t ts.flatten) (Nat.add_le_add_left ih _)

/-- Pieces that can be squeezed one by one tear no run apart. -/
theorem parted_of_squeeze_flatten {t : Text} {ts : List Text}
    (h : squeeze (t :: ts).flatten = ((t :: ts).map squeeze).flatten) :
    (t.closesBlank = true → opensBlank ts.flatten = false) ∧
      squeeze ts.flatten = (ts.map squeeze).flatten := by
  rw [List.flatten_cons, List.map_cons, List.flatten_cons] at h
  have hparted (ht : t.closesBlank = true) : opensBlank ts.flatten = false := by
    refine Bool.eq_false_iff.2 fun hopens => ?_
    have hcount := length_squeeze_append_torn ht hopens
    have hle := length_squeeze_flatten_le ts
    rw [h, List.length_append] at hcount
    omega
  rw [squeeze_append hparted] at h
  exact ⟨hparted, List.append_cancel_left h⟩

/-- Pieces that are the same when squeezed can be squeezed one by one in both texts or in
neither. -/
theorem squeeze_flatten_congr {ss ts : List Text} (hsame : ss.map squeeze = ts.map squeeze)
    (hparted : squeeze ts.flatten = (ts.map squeeze).flatten) :
    squeeze ss.flatten = (ss.map squeeze).flatten := by
  induction ss generalizing ts with
  | nil => rfl
  | cons s ss ih =>
    obtain ⟨t, ts, rfl⟩ : ∃ t us, ts = t :: us := by
      cases ts with
      | nil => cases hsame
      | cons t us => exact ⟨t, us, rfl⟩
    rw [List.map_cons, List.map_cons, List.cons.injEq] at hsame
    obtain ⟨ht, hrest⟩ := parted_of_squeeze_flatten hparted
    have hss := ih hsame.2 hrest
    have hcloses : s.closesBlank = t.closesBlank := by
      rw [← closesBlank_squeeze s, hsame.1, closesBlank_squeeze]
    have hopens : opensBlank ss.flatten = opensBlank ts.flatten := by
      rw [← opensBlank_squeeze ss.flatten, hss, hsame.2, ← hrest, opensBlank_squeeze]
    rw [List.flatten_cons, List.map_cons, List.flatten_cons,
      squeeze_append (by rw [hcloses, hopens]; exact ht), hss]

/-- A piece that is the same when squeezed is no longer, where no run is torn apart behind it. -/
theorem eq_nil_of_squeeze_append {t x rest : Text} (hsame : squeeze (t ++ x) = squeeze t)
    (hparted : t.closesBlank = true → opensBlank (x ++ rest) = false) : x = [] := by
  cases x with
  | nil => rfl
  | cons c x =>
    have hpart : t.closesBlank = true → opensBlank (c :: x) = false := hparted
    rw [squeeze_append hpart, List.append_right_eq_self] at hsame
    exact absurd (squeeze_eq_nil_iff.1 hsame) (List.cons_ne_nil _ _)

/-- **Pieces of one text that are the same when squeezed are the same**, if they can be squeezed one
by one. -/
theorem eq_of_map_squeeze {ss ts : List Text} (hsame : ss.map squeeze = ts.map squeeze)
    (hwhole : ss.flatten = ts.flatten) (hparted : squeeze ss.flatten = (ss.map squeeze).flatten) :
    ss = ts := by
  induction ss generalizing ts with
  | nil => exact (List.map_eq_nil_iff.1 hsame.symm).symm
  | cons s ss ih =>
    obtain ⟨t, ts, rfl⟩ : ∃ t us, ts = t :: us := by
      cases ts with
      | nil => cases hsame
      | cons t us => exact ⟨t, us, rfl⟩
    have hparted' : squeeze (t :: ts).flatten = ((t :: ts).map squeeze).flatten := by
      rw [← hwhole, ← hsame, hparted]
    obtain ⟨hs, hrest⟩ := parted_of_squeeze_flatten hparted
    obtain ⟨ht, -⟩ := parted_of_squeeze_flatten hparted'
    rw [List.map_cons, List.map_cons, List.cons.injEq] at hsame
    rw [List.flatten_cons, List.flatten_cons] at hwhole
    have hst : s = t := by
      rcases List.append_eq_append_iff.1 hwhole with ⟨x, rfl, hx⟩ | ⟨x, rfl, hx⟩
      · rw [hx] at hs
        rw [eq_nil_of_squeeze_append hsame.1.symm hs, List.append_nil]
      · rw [hx] at ht
        rw [eq_nil_of_squeeze_append hsame.1 ht, List.append_nil]
    subst hst
    rw [ih hsame.2 (List.append_cancel_left hwhole) hrest]

end Text

end ActionScript
