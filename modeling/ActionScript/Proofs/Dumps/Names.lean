import ActionScript.Tree.Dump
import Mathlib.Data.List.Forall2
import Mathlib.Data.List.Nodup

/-!
# The names in dumps

Kinds and slots go by their names in a dump.  A name is one word, and no two kinds or slots share
one, so a word that a dump starts with tells what it names.

* `Kind.label_injective`, `Kind.tag_injective`, `Field.spelling_injective`: a name has one meaning.
* `Field.lead_injective`: what stands in front of a child tells the slot.
* `Kind.tag_append_inj`, `Field.lead_append_inj`: **where the name ends is plain**, too.
-/

set_option autoImplicit false

namespace ActionScript

/-- A word without ends of words in front of one is told apart from what follows. -/
theorem Text.append_inj_of_ends {p : Char → Bool} {a b u v : Text} (ha : ∀ c ∈ a, p c = false)
    (hb : ∀ c ∈ b, p c = false) (hu : ∃ c cs, u = c :: cs ∧ p c = true)
    (hv : ∃ c cs, v = c :: cs ∧ p c = true) (h : a ++ u = b ++ v) : a = b ∧ u = v := by
  have hword {w t : Text} (hw : ∀ c ∈ w, p c = false) (ht : ∃ c cs, t = c :: cs ∧ p c = true) :
      (w ++ t).takeWhile (fun c => !p c) = w := by
    obtain ⟨c, cs, rfl, hc⟩ := ht
    rw [List.takeWhile_append_of_pos fun d hd => by rw [hw d hd]; rfl]
    simp [hc]
  have hab : a = b := by rw [← hword ha hu, h, hword hb hv]
  subst hab
  exact ⟨rfl, List.append_cancel_left h⟩

/-- Words are all different if those of one length are: few words of a long list are compared. -/
theorem Text.nodup_of_length (m : Nat) {words : List Text} (hlength : ∀ w ∈ words, w.length < m)
    (h : ∀ n < m, (words.filter fun w => w.length == n).Nodup) : words.Nodup := by
  rw [List.nodup_iff_count_le_one]
  intro w
  by_cases hw : w ∈ words
  · have hcount := List.nodup_iff_count_le_one.1 (h w.length (hlength w hw)) w
    rwa [List.count_filter (p := fun v : Text => v.length == w.length) (a := w) (by simp)] at hcount
  · rw [List.count_eq_zero_of_not_mem hw]
    exact Nat.zero_le 1

/-- Values are named by these words, letter by letter.  No two words are the same, and all their
characters are of one class. -/
structure Vocabulary {α : Type} (name : α → String) (p : Char → Bool) (as : List α)
    (words : List Text) : Prop where
  spelled : List.Forall₂ (fun a w => name a = String.ofList w) as words
  nodup : words.Nodup
  plain : ∀ w ∈ words, w.all p = true

namespace Vocabulary

variable {α : Type} {name : α → String} {p : Char → Bool} {as : List α} {words : List Text}

theorem map_eq (h : Vocabulary name p as words) : as.map (fun a => (name a).toList) = words := by
  rw [← List.forall₂_eq_eq_eq, List.forall₂_map_left_iff]
  exact h.spelled.imp fun a w ha => by rw [ha, String.toList_ofList]

theorem of_mem (h : Vocabulary name p as words) {a : α} (ha : a ∈ as) {c : Char}
    (hc : c ∈ (name a).toList) : p c = true := by
  refine List.all_eq_true.1 (h.plain (name a).toList ?_) c hc
  rw [← h.map_eq]
  exact List.mem_map_of_mem ha

theorem injective (h : Vocabulary name p as words) (hall : ∀ a, a ∈ as) :
    Function.Injective fun a => (name a).toList := fun a b hab => by
  have hnodup := h.nodup
  rw [← h.map_eq] at hnodup
  exact List.inj_on_of_nodup_map hnodup (hall a) (hall b) hab

end Vocabulary

/-! ## Kinds -/

namespace Kind

/-- The characters of the names of kinds. -/
def isLabelChar (c : Char) : Bool := c.isUpper || c.isDigit || c == '_'

theorem exists_labels : ∃ words, Vocabulary label isLabelChar all words := by
  apply Exists.intro
  constructor
  case spelled =>
    simp only [all]
    repeat' constructor
  case nodup => exact Text.nodup_of_length 26 (by decide +kernel) (by decide +kernel)
  case plain => decide +kernel

theorem isLabelChar_of_mem {k : Kind} {c : Char} (h : c ∈ k.label.toList) : isLabelChar c = true :=
  exists_labels.elim fun _ hwords => hwords.of_mem k.mem_all h

/-- What the characters of names are like, in lower case, too. -/
theorem isLabelChar_facts {c : Char} (h : isLabelChar c = true) :
    c ≠ '\n' ∧ c ≠ '\r' ∧ c.toLower ≠ ' ' ∧ c.toLower ≠ ')' ∧ c.toLower.toUpper = c := by
  have hsmall : c.toNat < 128 := by
    rw [isLabelChar, Bool.or_eq_true, Bool.or_eq_true, beq_iff_eq] at h
    rcases h with (hupper | hdigit) | rfl
    · have hle : c.val ≤ 'Z'.val := (of_decide_eq_true hupper).2
      exact Nat.lt_of_le_of_lt (UInt32.le_iff_toNat_le.1 hle) (by decide)
    · rw [Char.isDigit, Bool.and_eq_true] at hdigit
      have hle : c.val ≤ '9'.val := of_decide_eq_true hdigit.2
      exact Nat.lt_of_le_of_lt (UInt32.le_iff_toNat_le.1 hle) (by decide)
    · decide
  have hcode : ∀ n < 128, isLabelChar (Char.ofNat n) = true →
      Char.ofNat n ≠ '\n' ∧ Char.ofNat n ≠ '\r' ∧ (Char.ofNat n).toLower ≠ ' ' ∧
        (Char.ofNat n).toLower ≠ ')' ∧ (Char.ofNat n).toLower.toUpper = Char.ofNat n := by
    decide +kernel
  simpa only [Char.ofNat_toNat] using hcode c.toNat hsmall (by rwa [Char.ofNat_toNat])

/-- **No two kinds have one name.** -/
theorem label_injective : Function.Injective fun k : Kind => k.label.toList :=
  exists_labels.elim fun _ hwords => hwords.injective mem_all

theorem toList_tag (k : Kind) : k.tag.toList = k.label.toList.map Char.toLower :=
  String.toList_ofList

/-- In upper case the name is the same again. -/
theorem map_toUpper_tag (k : Kind) : k.tag.toList.map Char.toUpper = k.label.toList := by
  rw [toList_tag, List.map_map]
  refine (List.map_congr_left fun c hc => ?_).trans (List.map_id _)
  exact (isLabelChar_facts (isLabelChar_of_mem hc)).2.2.2.2

/-- **No two kinds have one name in lower case.** -/
theorem tag_injective : Function.Injective fun k : Kind => k.tag.toList := by
  intro j k h
  refine label_injective ?_
  dsimp only at h ⊢
  rw [← map_toUpper_tag j, ← map_toUpper_tag k, h]

/-- Does a character end a name in lower case? -/
def isTagEnd (c : Char) : Bool := c == ' ' || c == ')'

theorem not_isTagEnd_of_mem {k : Kind} {c : Char} (h : c ∈ k.tag.toList) : isTagEnd c = false := by
  rw [toList_tag] at h
  obtain ⟨d, hd, rfl⟩ := List.mem_map.1 h
  obtain ⟨-, -, hblank, hparen, -⟩ := isLabelChar_facts (isLabelChar_of_mem hd)
  simp [isTagEnd, hblank, hparen]

/-- **A name in lower case ends where a blank or a parenthesis stands.** -/
theorem tag_append_inj {j k : Kind} {u v : Text} (hu : ∃ c cs, u = c :: cs ∧ isTagEnd c = true)
    (hv : ∃ c cs, v = c :: cs ∧ isTagEnd c = true) (h : j.tag.toList ++ u = k.tag.toList ++ v) :
    j = k ∧ u = v := by
  obtain ⟨htag, hrest⟩ := Text.append_inj_of_ends (fun _ => not_isTagEnd_of_mem)
    (fun _ => not_isTagEnd_of_mem) hu hv h
  exact ⟨tag_injective htag, hrest⟩

end Kind

/-! ## Slots -/

namespace Field

/-- The characters of the names of slots. -/
def isSpellingChar (c : Char) : Bool := c.isLower || c == '_'

theorem mem_all (f : Field) : f ∈ all := by
  have hplace : all[f.ctorIdx]? = some f := by cases f <;> rfl
  exact List.mem_of_getElem? hplace

theorem exists_spellings : ∃ words, Vocabulary spelling isSpellingChar all words := by
  apply Exists.intro
  constructor
  case spelled =>
    simp only [all]
    repeat' constructor
  all_goals decide +kernel

theorem isSpellingChar_of_mem {f : Field} {c : Char} (h : c ∈ f.spelling.toList) :
    isSpellingChar c = true :=
  exists_spellings.elim fun _ hwords => hwords.of_mem f.mem_all h

/-- **No two slots have one name.** -/
theorem spelling_injective : Function.Injective fun f : Field => f.spelling.toList :=
  exists_spellings.elim fun _ hwords => hwords.injective mem_all

/-- Neither a line break nor a parenthesis stands in front of what fills a slot. -/
theorem lead_facts {f : Option Field} {c : Char} (h : c ∈ lead f) :
    c ≠ '\n' ∧ c ≠ '\r' ∧ c ≠ '(' := by
  cases f with
  | none => exact absurd h List.not_mem_nil
  | some f =>
    rw [lead, List.mem_append] at h
    rcases h with hname | hcolon
    · have hchar := isSpellingChar_of_mem hname
      refine ⟨?_, ?_, ?_⟩ <;> rintro rfl <;> exact absurd hchar (by decide)
    · simp only [List.mem_cons, List.not_mem_nil, or_false] at hcolon
      rcases hcolon with rfl | rfl <;> decide

/-- **What stands in front of a child tells the slot.** -/
theorem lead_injective : Function.Injective lead := by
  intro f g h
  cases f with
  | none =>
    cases g with
    | none => rfl
    | some g => simp [lead] at h
  | some f =>
    cases g with
    | none => simp [lead] at h
    | some g => exact congrArg some (spelling_injective (List.append_cancel_right h))

/-- **What stands in front of a node ends where the node opens.** -/
theorem lead_append_inj {f g : Option Field} {u v : Text}
    (h : lead f ++ '(' :: u = lead g ++ '(' :: v) : f = g ∧ u = v := by
  have hlead {f : Option Field} : ∀ c ∈ lead f, (c == '(') = false := fun c hc => by
    simp [(lead_facts hc).2.2]
  obtain ⟨hfields, hrest⟩ := Text.append_inj_of_ends hlead hlead ⟨_, _, rfl, rfl⟩ ⟨_, _, rfl, rfl⟩ h
  exact ⟨lead_injective hfields, (List.cons.inj hrest).2⟩

end Field

end ActionScript
