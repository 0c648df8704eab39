import ActionScript.Proofs.Events
import ActionScript.Tree.Entry

/-!
# Records that tell shapes

The entries of a record tell the finished elements of the open node, if each node among them has a
start and an end with the entries of its children in between.  Only the first child of a node may
stand in front of that start, and then its own start has a link to it.

* `Entry.Tells`: the entries tell shapes, and where the node completed last has its start.
* `Entry.Tells.exists_start`: that start can be given another slot.
* `Entry.Tells.settle_eq`: **such entries are told as the events of the shapes.**
-/

set_option autoImplicit false

namespace ActionScript

namespace Start

/-- The start with a link forward. -/
def linked (o : Start) (distance : Nat) : Start := { o with forward := some distance }

end Start

namespace Entry

/-! ## Single entries -/

theorem amend_append (before after : List Entry) (o : Start) (change : Start → Start) :
    amend (before ++ .start o :: after) before.length change =
      .ok (before ++ .start (change o) :: after) := by
  simp [amend]

@[simp] theorem settle_finish (entries : List Entry) :
    settle (.finish :: entries) = (settle entries).map (Event.finish :: ·) := by
  rw [settle]

@[simp] theorem settle_token (t : Token) (kind : Kind) (field : Option Field)
    (entries : List Entry) : settle (.token t kind field :: entries) =
      (settle entries).map
        (Shape.eventsAll [.token kind field t.leading t.text t.trailing] ++ ·) := by
  rw [settle]
  rfl

@[simp] theorem settle_placeholder (entries : List Entry) :
    settle (.start .placeholder :: entries) = settle entries := by
  rw [settle]
  simp [Start.placeholder, Start.isPlaceholder]

@[simp] theorem follow_none (entries : List Entry) : follow none entries = .ok ([], entries) := by
  rw [follow]

/-- A node starts behind those that its link leads to. -/
theorem settle_start {kind : Kind} {field : Option Field} {forward : Option Nat}
    {entries rest : List Entry} {starts : List Start} (hkind : kind ≠ .tombstone)
    (h : follow forward entries = .ok (starts, rest)) :
    settle (.start ⟨kind, forward, field⟩ :: entries) =
      (settle rest).map (starts.reverse.map Start.event ++ .start kind field :: ·) := by
  have hplain : (Start.mk kind forward field).isPlaceholder = false := by
    simp [Start.isPlaceholder, hkind]
  rw [settle]
  simp only [hplain, Bool.false_eq_true, if_false]
  split
  · rename_i fault hf
    rw [h] at hf
    cases hf
  · rename_i found others hf
    rw [h] at hf
    cases hf
    simp [Start.event]

/-- A link leads past the entries in between and leaves them as they are. -/
theorem follow_append (before entries : List Entry) (distance : Nat) :
    follow (some (before.length + (distance + 1))) (before ++ entries) =
      (follow (some (distance + 1)) entries).map fun (starts, rest) =>
        (starts, before ++ rest) := by
  induction before with
  | nil =>
    rw [List.length_nil, Nat.zero_add, List.nil_append]
    cases follow (some (distance + 1)) entries <;> rfl
  | cons entry before ih =>
    have hlength : (entry :: before).length + (distance + 1) = before.length + distance + 2 := by
      simp only [List.length_cons]
      omega
    rw [hlength, List.cons_append, follow]
    rw [← Nat.add_assoc] at ih
    rw [ih]
    cases follow (some (distance + 1)) entries <;> rfl

/-! ## Parts of a record -/

/-- Wherever the entries stand in a record, they are told as the events. -/
def ToldAs (entries : List Entry) (events : List Event) : Prop :=
  ∀ tail, settle (entries ++ tail) = (settle tail).map (events ++ ·)

/-- Wherever the entries stand, a link leads from one of them to the entry behind.  They are told as
the events `outer` and `events`, and in between the nodes start that this link leads to. -/
def LeadsOn (entries : List Entry) (outer events : List Event) : Prop :=
  ∀ tail starts rest, follow (some 1) tail = .ok (starts, rest) →
    settle (entries ++ tail) =
      (settle rest).map (outer ++ (starts.reverse.map Start.event ++ events) ++ ·)

namespace ToldAs

theorem nil : ToldAs [] [] := by
  intro tail
  cases h : settle tail <;> simp [h, Except.map]

theorem append {before after : List Entry} {events more : List Event} (h : ToldAs before events)
    (hmore : ToldAs after more) : ToldAs (before ++ after) (events ++ more) := by
  intro tail
  rw [List.append_assoc, h, hmore]
  cases settle tail <;> simp [Except.map]

theorem finish : ToldAs [.finish] [.finish] := settle_finish

theorem token (t : Token) (kind : Kind) (field : Option Field) :
    ToldAs [.token t kind field]
      (Shape.eventsAll [.token kind field t.leading t.text t.trailing]) := settle_token t kind field

/-- A node without a link, with all that is inside of it. -/
theorem node {entries : List Entry} {events : List Event} {kind : Kind} (hkind : kind ≠ .tombstone)
    (field : Option Field) (h : ToldAs entries events) :
    ToldAs (.start ⟨kind, none, field⟩ :: entries) (.start kind field :: events) := by
  intro tail
  rw [List.cons_append, settle_start hkind (follow_none _), h]
  cases settle tail <;> simp [Except.map]

/-- A node with a link. -/
theorem leadsOn {before after : List Entry} {outer events : List Event} {kind : Kind}
    (hkind : kind ≠ .tombstone) (field : Option Field) (h : ToldAs before outer)
    (hinside : ToldAs after events) :
    LeadsOn (before ++ .start ⟨kind, some (after.length + 1), field⟩ :: after) outer
      (.start kind field :: events) := by
  intro tail starts rest hfollow
  have hpast := follow_append after tail 0
  rw [hfollow] at hpast
  rw [List.append_assoc, h, List.cons_append, settle_start hkind hpast, hinside]
  cases settle rest <;> simp [Except.map]

end ToldAs

namespace LeadsOn

variable {entries after : List Entry} {outer events more : List Event} {kind : Kind}
  (hkind : kind ≠ .tombstone) (field : Option Field) (h : LeadsOn entries outer events)
  (hinside : ToldAs after more)

include hkind

/-- A link leads to a start, and to those to which a link leads from there. -/
theorem follow_start {forward : Option Nat} {inside rest : List Entry} {starts : List Start}
    (hfollow : follow forward inside = .ok (starts, rest)) :
    follow (some 1) (.start ⟨kind, forward, field⟩ :: inside) =
      .ok (⟨kind, forward, field⟩ :: starts, .start .placeholder :: rest) := by
  rw [follow, hfollow]
  simp [Start.isPlaceholder, hkind, Except.map]

include h hinside

/-- The node that the link leads to, if it has no link itself. -/
theorem toldAs :
    ToldAs (entries ++ .start ⟨kind, none, field⟩ :: after)
      (outer ++ .start kind field :: (events ++ more)) := by
  intro tail
  rw [List.append_assoc, List.cons_append,
    h _ _ _ (follow_start hkind field (follow_none _)), settle_placeholder, hinside]
  cases settle tail <;> simp [Except.map, Start.event]

/-- The node that the link leads to, if it has one, too. -/
theorem leadsOn :
    LeadsOn (entries ++ .start ⟨kind, some (after.length + 1), field⟩ :: after) outer
      (.start kind field :: (events ++ more)) := by
  intro tail starts rest hfollow
  have hpast := follow_append after tail 0
  rw [hfollow] at hpast
  rw [List.append_assoc, List.cons_append, h _ _ _ (follow_start hkind field hpast),
    settle_placeholder, hinside]
  cases settle rest <;> simp [Except.map, Start.event]

end LeadsOn

/-! ## Shapes told by entries -/

/-- The entries tell the shapes, the last one of which comes first, and the last shape is a node
that starts at the given position. -/
inductive Tells : List Shape → List Entry → Option Nat → Prop
  | nil : Tells [] [] none
  | token {shapes : List Shape} {entries : List Entry} {last : Option Nat}
      (h : Tells shapes entries last) (t : Token) (kind : Kind) (field : Option Field) :
      Tells (.token kind field t.leading t.text t.trailing :: shapes)
        (entries ++ [.token t kind field]) none
  | node {outer inner : List Shape} {before inside : List Entry} {last last' : Option Nat}
      (h : Tells outer before last) (hinner : Tells inner inside last') {kind : Kind}
      (hkind : kind ≠ .tombstone) (field : Option Field) :
      Tells (.node kind field inner.reverse :: outer)
        (before ++ .start ⟨kind, none, field⟩ :: (inside ++ [.finish])) (some before.length)
  /-- A node around an element that was completed before it started. -/
  | around {first : Shape} {outer inner : List Shape} {before after inside : List Entry}
      {o : Start} {last : Option Nat}
      (h : Tells (first :: outer) (before ++ .start o :: after) (some before.length))
      (hinner : Tells inner inside last) {kind : Kind} (hkind : kind ≠ .tombstone)
      (field : Option Field) :
      Tells (.node kind field (first :: inner.reverse) :: outer)
        (before ++ .start (o.linked (after.length + 1)) :: after ++
          .start ⟨kind, none, field⟩ :: (inside ++ [.finish]))
        (some (before ++ .start (o.linked (after.length + 1)) :: after).length)

namespace Tells

/-- **The node completed last can be put into a slot**, at the start that the record has of it. -/
theorem exists_start {kind : Kind} {field : Option Field} {children outer : List Shape}
    {entries : List Entry} {last : Option Nat}
    (h : Tells (.node kind field children :: outer) entries last) :
    ∃ before after, entries = before ++ .start ⟨kind, none, field⟩ :: after ∧
      last = some before.length ∧
      ∀ slot, Tells (.node kind slot children :: outer)
        (before ++ .start ⟨kind, none, slot⟩ :: after)
        (some before.length) := by
  cases h with
  | node h hinner hkind => exact ⟨_, _, rfl, rfl, h.node hinner hkind⟩
  | around h hinner hkind => exact ⟨_, _, rfl, rfl, h.around hinner hkind⟩

/-- **Entries that tell shapes are told as their events**; and if the node completed last gets a
link to the entry behind, the nodes start in front of it that this link leads to. -/
theorem toldAs_and_leadsOn {shapes : List Shape} {entries : List Entry} {last : Option Nat}
    (h : Tells shapes entries last) :
    ToldAs entries (Shape.eventsAll shapes.reverse) ∧
    ∀ first outer before o after, shapes = first :: outer → entries = before ++ .start o :: after →
      last = some before.length →
      LeadsOn (before ++ .start (o.linked (after.length + 1)) :: after)
        (Shape.eventsAll outer.reverse) first.events := by
  induction h with
  | nil => exact ⟨.nil, fun _ _ _ _ _ h => by cases h⟩
  | token h t kind field ih =>
    refine ⟨?_, fun _ _ _ _ _ _ _ h => by cases h⟩
    rw [List.reverse_cons, Shape.eventsAll_append]
    exact ih.1.append (.token t kind field)
  | @node outer inner before inside _ _ h hinner kind hkind field ih ihInner =>
    have hinside := ihInner.1.append .finish
    refine ⟨?_, ?_⟩
    · rw [List.reverse_cons, Shape.eventsAll_append]
      simpa [Shape.eventsAll, Shape.events] using ih.1.append (hinside.node hkind field)
    · rintro _ _ before' o after ⟨⟩ hentries hlast
      obtain ⟨rfl, heq⟩ := List.append_inj hentries (Option.some.inj hlast)
      cases heq
      exact ih.1.leadsOn hkind field hinside
  | @around first outer inner before after inside o _ h hinner kind hkind field ih ihInner =>
    have hfirst := ih.2 first outer before o after rfl rfl rfl
    have hinside := ihInner.1.append .finish
    refine ⟨?_, ?_⟩
    · rw [List.reverse_cons, Shape.eventsAll_append]
      simpa [Shape.eventsAll, Shape.events] using hfirst.toldAs hkind field hinside
    · rintro _ _ before' o' after' ⟨⟩ hentries hlast
      obtain ⟨rfl, heq⟩ := List.append_inj hentries (Option.some.inj hlast)
      cases heq
      simpa [Shape.events, Shape.eventsAll, Start.linked] using hfirst.leadsOn hkind field hinside

/-- **Entries that tell shapes are told as the events of the shapes.** -/
theorem settle_eq {shapes : List Shape} {entries : List Entry} {last : Option Nat}
    (h : Tells shapes entries last) : settle entries = .ok (Shape.eventsAll shapes.reverse) := by
  have htold := h.toldAs_and_leadsOn.1 []
  rwa [List.append_nil, settle, Except.map, List.append_nil] at htold

/-- A link that leads to the end of a node, or behind all entries, is a fault. -/
example : settle [.start ⟨.ident, some 1, none⟩, .finish] = .error .notStart ∧
    settle [.start ⟨.ident, some 2, none⟩, .finish] = .error .outOfRange := by
  simp [settle, follow, Start.isPlaceholder, Except.map]

end Tells

end Entry

end ActionScript
