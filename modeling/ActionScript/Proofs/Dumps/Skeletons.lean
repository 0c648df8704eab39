import ActionScript.Proofs.Avoiding
import ActionScript.Proofs.Dumps.Names
import ActionScript.Proofs.Trimming

/-!
# What an s-expression shows

An s-expression shows the nodes of a tree with their kinds and slots, and where the tokens without a
reading stand among them.  That is the skeleton of the tree, and the s-expression is a way to write
it down from which it can be read back.

A token without a reading is shown as a node of its kind would be, but no rule makes such a node.

* `Tree.Skeleton`: what is left of a tree without its other tokens.
* `Item.sexp_eq`: the s-expression is that of the skeleton.
* `Tree.Skeleton.sexp_inj`: **the text tells the skeleton, and where it ends.**
* `kind_ne_unknown_of_parseWithin`: no node of a parse has the kind of a token without a reading.
* `sexp_eq_iff_of_parseWithin`: trees have the same s-expression if and only if they have the same
  skeleton.
-/

set_option autoImplicit false

namespace ActionScript

open ActionScript.Parser ActionScript.Grammar

/-! ## Skeletons -/

/-- What an s-expression shows of a child: a token without a reading, or a node with its kind, the
slot it fills, and what is shown of its own children. -/
inductive Tree.Skeleton where
  | unknown
  | node (kind : Kind) (field : Option Field) (children : List Skeleton)

namespace Item

open ActionScript.Tree (Skeleton)

mutual

/-- What is shown of a child: nothing of a token that has a reading. -/
def skeletons : Item → List Skeleton
  | .token c => if c.leaf.kind == .unknown then [.unknown] else []
  | .node info children => [.node info.kind info.field (skeletonsAll children)]

/-- What is shown of several children. -/
def skeletonsAll : List Item → List Skeleton
  | [] => []
  | i :: is => skeletons i ++ skeletonsAll is

end

end Item

namespace Tree

/-- What is shown of a node. -/
def Node.skeleton (n : Node) : Skeleton := .node n.kind n.field (Item.skeletonsAll n.children)

/-- What is shown of a tree. -/
def skeleton (t : Tree) : Skeleton := t.root.skeleton

namespace Skeleton

/-! ## The text of a skeleton -/

/-- The opening of a node, in front of `tail`. -/
def opening (kind : Kind) (field : Option Field) (tail : Text) : Text :=
  ' ' :: (Field.lead field ++ '(' :: (kind.tag.toList ++ tail))

mutual

/-- The s-expression of a skeleton, in front of `tail`. -/
def sexp (tail : Text) : Skeleton → Text
  | .unknown => opening .unknown none (')' :: tail)
  | .node kind field children => opening kind field (sexpAll (')' :: tail) children)

/-- The s-expressions of several skeletons, in front of `tail`. -/
def sexpAll (tail : Text) : List Skeleton → Text
  | [] => tail
  | s :: ss => sexp (sexpAll tail ss) s

end

theorem sexpAll_append (tail : Text) (ss ts : List Skeleton) :
    sexpAll tail (ss ++ ts) = sexpAll (sexpAll tail ts) ss := by
  induction ss with
  | nil => rw [List.nil_append, sexpAll.eq_def _ []]
  | cons s ss ih => rw [List.cons_append, sexpAll, sexpAll, ih]

theorem opening_unknown (tail : Text) :
    opening .unknown none (')' :: tail) = " (unknown)".toList ++ tail := by
  have hmark : opening .unknown none [')'] = " (unknown)".toList := by decide +kernel
  rw [← hmark]
  simp [opening]

/-- The text of a skeleton starts with a blank. -/
theorem exists_sexp_eq (tail : Text) (s : Skeleton) : ∃ cs, s.sexp tail = ' ' :: cs := by
  cases s with
  | unknown => exact ⟨_, by rw [sexp, opening]⟩
  | node kind field children => exact ⟨_, by rw [sexp, opening]⟩

/-- Behind the name of a node there is a blank or the end of the node. -/
theorem sexpAll_starts (tail : Text) (ss : List Skeleton) :
    ∃ c cs, sexpAll (')' :: tail) ss = c :: cs ∧ Kind.isTagEnd c = true := by
  cases ss with
  | nil => exact ⟨')', tail, by rw [sexpAll], rfl⟩
  | cons s ss =>
    obtain ⟨cs, hcs⟩ := exists_sexp_eq (sexpAll (')' :: tail) ss) s
    exact ⟨' ', cs, by rw [sexpAll, hcs], rfl⟩

/-! ## Reading it back -/

mutual

/-- No node has the kind of a token without a reading. -/
def Named : Skeleton → Prop
  | .unknown => True
  | .node kind _ children => kind ≠ .unknown ∧ NamedAll children

/-- So it is in all of the skeletons. -/
def NamedAll : List Skeleton → Prop
  | [] => True
  | s :: ss => s.Named ∧ NamedAll ss

end

theorem namedAll_append {ss ts : List Skeleton} :
    NamedAll (ss ++ ts) ↔ NamedAll ss ∧ NamedAll ts := by
  induction ss with
  | nil => simp [NamedAll]
  | cons s ss ih => simp [NamedAll, ih, and_assoc]

/-- The opening of a node tells its kind and its slot, and where its children start. -/
theorem opening_inj {j k : Kind} {f g : Option Field} {u v : Text}
    (hu : ∃ c cs, u = c :: cs ∧ Kind.isTagEnd c = true)
    (hv : ∃ c cs, v = c :: cs ∧ Kind.isTagEnd c = true)
    (h : opening j f u = opening k g v) : j = k ∧ f = g ∧ u = v := by
  obtain ⟨hfield, hrest⟩ := Field.lead_append_inj (List.cons.inj h).2
  obtain ⟨hkind, hrest⟩ := Kind.tag_append_inj hu hv hrest
  exact ⟨hkind, hfield, hrest⟩

/-- Only a token without a reading is shown as one. -/
theorem sexp_unknown_ne {k : Kind} {f : Option Field} {ss : List Skeleton} (hk : k ≠ .unknown)
    (u v : Text) : sexp u .unknown ≠ sexp v (.node k f ss) := by
  intro h
  rw [sexp, sexp] at h
  exact hk (opening_inj ⟨_, _, rfl, rfl⟩ (sexpAll_starts v ss) h).1.symm

mutual

/-- **The text of a skeleton tells it, and where it ends.** -/
theorem sexp_inj {s t : Skeleton} {u v : Text} (hs : s.Named) (ht : t.Named)
    (h : s.sexp u = t.sexp v) : s = t ∧ u = v := by
  cases s with
  | unknown =>
    cases t with
    | unknown =>
      rw [sexp, sexp] at h
      obtain ⟨-, -, hrest⟩ := opening_inj ⟨_, _, rfl, rfl⟩ ⟨_, _, rfl, rfl⟩ h
      exact ⟨rfl, (List.cons.inj hrest).2⟩
    | node kind field children =>
      rw [Named] at ht
      exact absurd h (sexp_unknown_ne ht.1 u v)
  | node kind field children =>
    rw [Named] at hs
    cases t with
    | unknown => exact absurd h.symm (sexp_unknown_ne hs.1 v u)
    | node kind' field' children' =>
      rw [Named] at ht
      rw [sexp, sexp] at h
      obtain ⟨rfl, rfl, hchildren⟩ :=
        opening_inj (sexpAll_starts u children) (sexpAll_starts v children') h
      obtain ⟨rfl, hrest⟩ := sexpAll_inj hs.2 ht.2 hchildren
      exact ⟨rfl, hrest⟩

/-- The texts of the children of a node tell them, and where the node ends. -/
theorem sexpAll_inj {ss ts : List Skeleton} {u v : Text} (hs : NamedAll ss) (ht : NamedAll ts)
    (h : sexpAll (')' :: u) ss = sexpAll (')' :: v) ts) : ss = ts ∧ u = v := by
  cases ss with
  | nil =>
    cases ts with
    | nil =>
      rw [sexpAll, sexpAll] at h
      exact ⟨rfl, (List.cons.inj h).2⟩
    | cons t ts =>
      obtain ⟨cs, hcs⟩ := exists_sexp_eq (sexpAll (')' :: v) ts) t
      rw [sexpAll, sexpAll, hcs] at h
      cases h
  | cons s ss =>
    rw [NamedAll] at hs
    cases ts with
    | nil =>
      obtain ⟨cs, hcs⟩ := exists_sexp_eq (sexpAll (')' :: u) ss) s
      rw [sexpAll, sexpAll, hcs] at h
      cases h
    | cons t ts =>
      rw [NamedAll] at ht
      rw [sexpAll, sexpAll] at h
      obtain ⟨rfl, hmore⟩ := sexp_inj hs.1 ht.1 h
      obtain ⟨rfl, hrest⟩ := sexpAll_inj hs.2 ht.2 hmore
      exact ⟨rfl, hrest⟩

end

end Skeleton

end Tree

/-! ## S-expressions of trees -/

namespace Item

open ActionScript.Tree (Skeleton)

mutual

/-- **The s-expression of a child is that of what is shown of it.** -/
theorem sexp_eq (tail : Text) (i : Item) : i.sexp tail = Skeleton.sexpAll tail i.skeletons := by
  cases i with
  | token c =>
    rw [sexp, skeletons]
    split
    · rw [Skeleton.sexpAll, Skeleton.sexpAll, Skeleton.sexp, Skeleton.opening_unknown]
    · rw [Skeleton.sexpAll]
  | node info children =>
    rw [sexp, skeletons, Skeleton.sexpAll, Skeleton.sexpAll, Skeleton.sexp, sexpAll_eq]
    rfl

theorem sexpAll_eq (tail : Text) (is : List Item) :
    sexpAll tail is = Skeleton.sexpAll tail (skeletonsAll is) := by
  cases is with
  | nil => rw [sexpAll, skeletonsAll, Skeleton.sexpAll]
  | cons i is => rw [sexpAll, skeletonsAll, Skeleton.sexpAll_append, sexp_eq, sexpAll_eq]

end

end Item

namespace Tree.Node

variable {n m : Node}

theorem sexp_skeleton (n : Node) : n.skeleton.sexp [] = ' ' :: (Field.lead n.field ++ n.sexp) := by
  rw [skeleton, Skeleton.sexp, sexp, Item.sexpAll_eq]
  rfl

mutual

theorem named_skeletons (n : Node) (slot : Nat) (i : Item)
    (h : ∀ m ∈ n.nodesOf slot i, m.kind ≠ .unknown) : Skeleton.NamedAll i.skeletons := by
  cases i with
  | token c =>
    rw [Item.skeletons]
    split <;> simp [Skeleton.NamedAll, Skeleton.Named]
  | node info children =>
    rw [nodesOf, List.forall_mem_cons] at h
    rw [Item.skeletons, Skeleton.NamedAll, Skeleton.Named, Skeleton.NamedAll]
    exact ⟨⟨h.1, namedAll_skeletonsAll _ 0 children h.2⟩, trivial⟩

theorem namedAll_skeletonsAll (n : Node) (slot : Nat) (is : List Item)
    (h : ∀ m ∈ n.nodesFrom slot is, m.kind ≠ .unknown) :
    Skeleton.NamedAll (Item.skeletonsAll is) := by
  cases is with
  | nil =>
    rw [Item.skeletonsAll, Skeleton.NamedAll]
    trivial
  | cons i is =>
    rw [nodesFrom, List.forall_mem_append] at h
    rw [Item.skeletonsAll, Skeleton.namedAll_append]
    exact ⟨named_skeletons n slot i h.1, namedAll_skeletonsAll n (slot + 1) is h.2⟩

end

/-- What is shown of a node is so if no node below it has the kind. -/
theorem named_skeleton (h : ∀ m ∈ n.descendants, m.kind ≠ .unknown) : n.skeleton.Named := by
  rw [descendants, List.forall_mem_cons] at h
  rw [skeleton, Skeleton.Named]
  exact ⟨h.1, namedAll_skeletonsAll n 0 n.children h.2⟩

/-- Nodes in the same slot have the same s-expression if and only if the same is shown of them. -/
theorem sexp_eq_iff (hn : n.skeleton.Named) (hm : m.skeleton.Named) (hfield : n.field = m.field) :
    n.sexp = m.sexp ↔ n.skeleton = m.skeleton := by
  constructor
  · intro h
    have htext : n.skeleton.sexp [] = m.skeleton.sexp [] := by
      rw [sexp_skeleton, sexp_skeleton, hfield, h]
    exact (Skeleton.sexp_inj hn hm htext).1
  · intro h
    have htext : ' ' :: (Field.lead n.field ++ n.sexp) = ' ' :: (Field.lead m.field ++ m.sexp) := by
      rw [← sexp_skeleton, ← sexp_skeleton, h]
    rw [hfield] at htext
    exact List.append_cancel_left (List.cons.inj htext).2

end Tree.Node

/-! ## No node has the kind of a token without a reading -/

namespace Setting

/-- A node is of another kind than a token without a reading. -/
def IsNamed (kind : Kind) (_ : List Shape) : Prop := kind ≠ .unknown

theorem isNamed_of_not_mem (kind : Kind) (children : List Shape) (h : kind ∉ Kind.unmade) :
    IsNamed kind children := by
  rintro rfl
  exact h (by decide)

/-- **No rule makes a node of that kind**, at any depth. -/
theorem retains_isNamed [Alphabet] (limits : Limits) (depth : Nat) :
    (atDepth limits depth).Retains IsNamed False := by
  induction depth with
  | zero => exact retains_zero isNamed_of_not_mem limits
  | succ depth ih =>
    intro rule s
    have hrule : (atDepth limits depth).Keeps IsNamed False (Grammar.rule rule) s :=
      keeps_of_avoids isNamed_of_not_mem ih (avoids_rule_unmade rule)
    exact hrule

end Setting

variable [Alphabet]

/-- **No node of a parse has the kind of a token without a reading.** -/
theorem kind_ne_unknown_of_parseWithin {limits : Limits} {text : Text} {p : Parse}
    (h : parseWithin limits text = .ok p) : ∀ n ∈ p.tree.root.descendants, n.kind ≠ .unknown := by
  intro n hn
  have ha := aborted_of_parseWithin h
  have hkeeps : (Setting.atDepth limits limits.maxDepth).Keeps Setting.IsNamed False sourceFile
      (State.start text) :=
    Setting.keeps_of_avoids Setting.isNamed_of_not_mem (Setting.retains_isNamed limits _)
      avoids_sourceFile_unmade
  have hrun : (State.run limits text).Every Setting.IsNamed :=
    hkeeps (fun c hc => (by cases hc)) ⟨ha, fun h => h.elim⟩
  obtain ⟨-, -, start, kids, -, -, -, -, -, -, -, hevery⟩ := liesIn_of_every h hrun n hn
  exact (Shape.every_node.1 hevery).1

/-- The root of a tree fills no slot. -/
theorem field_root_of_parseWithin {limits : Limits} {text : Text} {p : Parse}
    (h : parseWithin limits text = .ok p) : p.tree.root.field = none := by
  have ha := aborted_of_parseWithin h
  obtain ⟨modes, kids, last, hout⟩ := State.run_outcome ha
  rw [hout.parseWithin_eq ha, Except.ok.injEq] at h
  subst h
  rfl

/-- **Trees have the same s-expression if and only if it shows the same of them.** -/
theorem sexp_eq_iff_of_parseWithin {limits limits' : Limits} {text text' : Text} {p q : Parse}
    (hp : parseWithin limits text = .ok p) (hq : parseWithin limits' text' = .ok q) :
    p.tree.sexp = q.tree.sexp ↔ p.tree.skeleton = q.tree.skeleton := by
  refine Tree.Node.sexp_eq_iff (Tree.Node.named_skeleton (kind_ne_unknown_of_parseWithin hp))
    (Tree.Node.named_skeleton (kind_ne_unknown_of_parseWithin hq)) ?_
  rw [field_root_of_parseWithin hp, field_root_of_parseWithin hq]

end ActionScript
