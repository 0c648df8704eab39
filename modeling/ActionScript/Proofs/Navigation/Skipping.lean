import ActionScript.Proofs.Navigation.Descent

/-!
# Walks that skip

A walk can leave out what is below a node that it has just entered: the end of that node is left out
too, and the walk goes on behind it, or is over if it was the node that the walk started from.
However many nodes are skipped, and wherever they are, the walk tells all of its steps but those.

* `Step.prune`: the steps without those below the nodes that are skipped.
* `Step.Nested`: every other node that is entered is left again, innermost first.
* `Walk.Runs`: a walk that is taken step by step, with the skips.
* `Walk.runs_prune`, `Walk.Runs.nodes`: **such a walk tells the pruned steps**, with tokens and
  without.
* `skipping_of_built`: all of that for the nodes of every tree.
-/

set_option autoImplicit false

namespace ActionScript

namespace Tree

/-! ## Pruned steps -/

namespace Step

/-- Does the step leave the node with this number? -/
def leaves (number : Nat) : Step → Bool
  | .leave n => n.info.index == number
  | .enter _ | .token _ => false

/-- Is the step a token? -/
def isToken : Step → Bool
  | .token _ => true
  | .enter _ | .leave _ => false

/-- The steps behind the one that leaves the node with this number. -/
def behind (number : Nat) (steps : List Step) : List Step :=
  (steps.dropWhile fun s => !s.leaves number).drop 1

theorem length_behind_le (number : Nat) (steps : List Step) :
    (behind number steps).length ≤ steps.length := by
  rw [behind, List.length_drop]
  exact Nat.le_trans (Nat.sub_le _ _) (List.dropWhile_suffix _).length_le

/-- The steps without those strictly behind the one that enters a node to be skipped, up to the one
that leaves it, that one included. -/
def prune (skips : Node → Bool) : List Step → List Step
  | [] => []
  | .enter n :: steps =>
    .enter n :: prune skips (if skips n then behind n.info.index steps else steps)
  | .leave n :: steps => .leave n :: prune skips steps
  | .token t :: steps => .token t :: prune skips steps
termination_by steps => steps.length
decreasing_by
  · have := length_behind_le n.info.index steps
    simp only [List.length_cons]
    split <;> omega
  · exact Nat.lt_succ_self _
  · exact Nat.lt_succ_self _

/-- Every node that is entered and not to be skipped is left again, innermost first, and no
other. -/
inductive Nested (skips : Node → Bool) : List Step → Prop
  | nil : Nested skips []
  | token {t : Token} {steps : List Step} : Nested skips steps → Nested skips (.token t :: steps)
  | skipped {n : Node} {steps : List Step} :
      skips n = true → Nested skips steps → Nested skips (.enter n :: steps)
  | node {n : Node} {inner steps : List Step} :
      skips n = false → Nested skips inner → Nested skips steps →
        Nested skips (.enter n :: (inner ++ .leave n :: steps))

variable {skips : Node → Bool} {ss ts : List Step} {n : Node}

theorem Nested.append (h₁ : Nested skips ss) (h₂ : Nested skips ts) : Nested skips (ss ++ ts) := by
  induction h₁ with
  | nil => exact h₂
  | token _ ih => exact .token ih
  | skipped hskip _ ih => exact .skipped hskip ih
  | node hskip hinner _ _ ih =>
    rw [List.cons_append, List.append_assoc, List.cons_append]
    exact .node hskip hinner ih

/-- Without the tokens the steps are nested as they were. -/
theorem Nested.filter (h : Nested skips ss) : Nested skips (ss.filter fun s => !s.isToken) := by
  induction h with
  | nil => exact .nil
  | token _ ih => exact ih
  | skipped hskip _ ih => exact .skipped hskip ih
  | node hskip _ _ ihInner ih =>
    rw [List.filter_cons_of_pos rfl, List.filter_append, List.filter_cons_of_pos rfl]
    exact .node hskip ihInner ih

theorem behind_append {number : Nat} (hss : ∀ s ∈ ss, s.leaves number = false)
    (hn : n.info.index = number) : behind number (ss ++ .leave n :: ts) = ts := by
  rw [behind, List.dropWhile_append_of_pos (by simpa using hss)]
  simp [leaves, hn]

theorem behind_filter (number : Nat) (ss : List Step) :
    behind number (ss.filter fun s => !s.isToken) =
      (behind number ss).filter fun s => !s.isToken := by
  induction ss with
  | nil => rfl
  | cons s ss ih =>
    cases s with
    | token t => exact ih
    | enter n => exact ih
    | leave n =>
      by_cases hn : n.info.index = number
      · simp [behind, leaves, isToken, hn]
      · simpa [behind, leaves, isToken, hn] using ih

/-- Tokens can be left out before the steps are pruned or afterwards. -/
theorem prune_filter (skips : Node → Bool) (ss : List Step) :
    prune skips (ss.filter fun s => !s.isToken) = (prune skips ss).filter fun s => !s.isToken := by
  induction ss using prune.induct skips with
  | case1 => simp [prune]
  | case2 n ss ih =>
    rw [dite_eq_ite] at ih
    rw [List.filter_cons_of_pos rfl, prune, prune, List.filter_cons_of_pos rfl, ← ih]
    by_cases hskip : skips n = true
    · rw [if_pos hskip, if_pos hskip, behind_filter]
    · rw [if_neg hskip, if_neg hskip]
  | case3 n ss ih =>
    rw [List.filter_cons_of_pos rfl, prune, prune, List.filter_cons_of_pos rfl, ih]
  | case4 t ss ih =>
    rw [List.filter_cons_of_neg (by simp [isToken]), prune,
      List.filter_cons_of_neg (by simp [isToken]), ih]

/-- Where nothing is skipped, nothing is left out. -/
theorem prune_false (ss : List Step) : prune (fun _ => false) ss = ss := by
  induction ss with
  | nil => rw [prune]
  | cons s ss ih => cases s <;> simp [prune, ih]

end Step

/-! ## The steps of a tree -/

namespace Node

variable {skips : Node → Bool} {n : Node}

mutual

theorem mem_nodesOf_of_leave {n m : Node} {slot : Nat} {i : Item} (h : .leave m ∈ n.walkOf slot i) :
    m ∈ n.nodesOf slot i := by
  cases i with
  | token c => simp [walkOf] at h
  | node info children =>
    rw [nodesOf, List.mem_cons]
    rw [walkOf, List.mem_cons, List.mem_append, List.mem_singleton] at h
    rcases h with h | h | h
    · cases h
    · exact .inr (mem_nodesFrom_of_leave h)
    · exact .inl (Step.leave.inj h)

/-- Only nodes that were entered are left. -/
theorem mem_nodesFrom_of_leave {n m : Node} {slot : Nat} {is : List Item}
    (h : .leave m ∈ n.walkFrom slot is) : m ∈ n.nodesFrom slot is := by
  cases is with
  | nil => simp [walkFrom] at h
  | cons i is =>
    rw [nodesFrom, List.mem_append]
    rw [walkFrom, List.mem_append] at h
    exact h.imp mem_nodesOf_of_leave mem_nodesFrom_of_leave

end

/-- What is left of the walk through a node once it is pruned. -/
def pruned (skips : Node → Bool) (n : Node) : List Step :=
  if skips n then [.enter n]
    else .enter n :: (Step.prune skips (n.walkFrom 0 n.children) ++ [.leave n])

/-- The walk through a node ends where the node is left, so a skip goes there. -/
theorem prune_walk_append (skips : Node → Bool) (h : n.LaidOut) (rest : List Step)
    (hbelow : ∀ rest, Step.prune skips (n.walkFrom 0 n.children ++ rest) =
      Step.prune skips (n.walkFrom 0 n.children) ++ Step.prune skips rest) :
    Step.prune skips (n.walk ++ rest) = n.pruned skips ++ Step.prune skips rest := by
  have hleave : ∀ s ∈ n.walkFrom 0 n.children, s.leaves n.info.index = false := by
    intro s hs
    cases s with
    | enter m => rfl
    | token t => rfl
    | leave m =>
      have hlt := h.index_lt (mem_nodesFrom_of_leave hs)
      exact beq_eq_false_iff_ne.2 (Nat.ne_of_gt hlt)
  rw [walk, List.cons_append, List.append_assoc, List.cons_append, List.nil_append,
    Step.prune, pruned]
  by_cases hskip : skips n = true
  · rw [if_pos hskip, if_pos hskip, Step.behind_append hleave rfl]
    rfl
  · rw [if_neg hskip, if_neg hskip, hbelow, Step.prune, List.cons_append, List.append_assoc]
    rfl

mutual

theorem prune_walkOf_append (n : Node) (slot : Nat) (i : Item)
    (h : ∀ m ∈ n.nodesOf slot i, m.LaidOut)
    (rest : List Step) : Step.prune skips (n.walkOf slot i ++ rest) =
      Step.prune skips (n.walkOf slot i) ++ Step.prune skips rest := by
  cases i with
  | token c =>
    rw [walkOf]
    simp [Step.prune]
  | node info children =>
    rw [nodesOf, List.forall_mem_cons] at h
    have hwalk (rest : List Step) :=
      prune_walk_append skips h.1 rest (prune_walkFrom_append _ 0 children h.2)
    have hall := hwalk []
    rw [List.append_nil, Step.prune, List.append_nil] at hall
    rw [walkOf]
    exact (hwalk rest).trans (congrArg (· ++ _) hall.symm)

/-- Parts of a walk are pruned one after the other. -/
theorem prune_walkFrom_append (n : Node) (slot : Nat) (is : List Item)
    (h : ∀ m ∈ n.nodesFrom slot is, m.LaidOut) (rest : List Step) :
    Step.prune skips (n.walkFrom slot is ++ rest) =
      Step.prune skips (n.walkFrom slot is) ++ Step.prune skips rest := by
  cases is with
  | nil =>
    rw [walkFrom, Step.prune]
    rfl
  | cons i is =>
    rw [nodesFrom, List.forall_mem_append] at h
    rw [walkFrom, List.append_assoc, prune_walkOf_append n slot i h.1,
      prune_walkOf_append n slot i h.1, prune_walkFrom_append n (slot + 1) is h.2,
      List.append_assoc]

end

theorem prune_walkOf_node {slot : Nat} {info : NodeInfo} {children : List Item}
    (h : ∀ m ∈ n.nodesOf slot (.node info children), m.LaidOut) :
    Step.prune skips (n.walkOf slot (.node info children)) =
      (n.child slot info children).pruned skips := by
  rw [nodesOf, List.forall_mem_cons] at h
  have hwalk := prune_walk_append skips h.1 [] (prune_walkFrom_append _ 0 children h.2)
  rw [List.append_nil, Step.prune, List.append_nil] at hwalk
  rw [walkOf]
  exact hwalk

theorem nested_pruned (h : Step.Nested skips (Step.prune skips (n.walkFrom 0 n.children))) :
    Step.Nested skips (n.pruned skips) := by
  rw [pruned]
  by_cases hskip : skips n = true
  · rw [if_pos hskip]
    exact .skipped hskip .nil
  · rw [if_neg hskip]
    exact .node (Bool.eq_false_iff.2 hskip) h .nil

mutual

theorem nested_prune_walkOf (n : Node) (slot : Nat) (i : Item)
    (h : ∀ m ∈ n.nodesOf slot i, m.LaidOut) :
    Step.Nested skips (Step.prune skips (n.walkOf slot i)) := by
  cases i with
  | token c =>
    rw [walkOf, Step.prune, Step.prune]
    exact .token .nil
  | node info children =>
    rw [prune_walkOf_node h]
    rw [nodesOf, List.forall_mem_cons] at h
    exact nested_pruned (nested_prune_walkFrom _ 0 children h.2)

/-- **Pruned walks are nested.** -/
theorem nested_prune_walkFrom (n : Node) (slot : Nat) (is : List Item)
    (h : ∀ m ∈ n.nodesFrom slot is, m.LaidOut) :
    Step.Nested skips (Step.prune skips (n.walkFrom slot is)) := by
  cases is with
  | nil =>
    rw [walkFrom, Step.prune]
    exact .nil
  | cons i is =>
    rw [nodesFrom, List.forall_mem_append] at h
    rw [walkFrom, prune_walkOf_append n slot i h.1]
    exact (nested_prune_walkOf n slot i h.1).append (nested_prune_walkFrom n (slot + 1) is h.2)

end

end Node

/-! ## Step by step -/

namespace Walk

/-- Taken step by step, and with every node that is to be skipped left out right behind the step
that enters it, the walk gives these steps and is over then.  It gives none at all if one of its
skips fails. -/
inductive Runs (next? : Walk → Option (Step × Walk)) (skips : Node → Bool) : Walk → List Step → Prop
  | stop {w : Walk} : next? w = none → Runs next? skips w []
  | step {w v : Walk} {s : Step} {ss : List Step} :
      next? w = some (s, v) → (∀ n, s = .enter n → skips n = false) → Runs next? skips v ss →
        Runs next? skips w (s :: ss)
  | skip {w v u : Walk} {n : Node} {ss : List Step} :
      next? w = some (.enter n, v) → skips n = true → v.skip? = some u → Runs next? skips u ss →
        Runs next? skips w (.enter n :: ss)

section
variable {next? : Walk → Option (Step × Walk)} {skips : Node → Bool} {w v : Walk}
    {ss ts : List Step}

/-- A walk gives no other steps than those it gives. -/
theorem Runs.unique (h₁ : Runs next? skips w ss) (h₂ : Runs next? skips w ts) : ss = ts := by
  induction h₁ generalizing ts with
  | stop hnext =>
    cases h₂ with
    | stop => rfl
    | step hnext' => rw [hnext] at hnext'; cases hnext'
    | skip hnext' => rw [hnext] at hnext'; cases hnext'
  | step hnext hkeep _ ih =>
    cases h₂ with
    | stop hnext' => rw [hnext] at hnext'; cases hnext'
    | step hnext' _ h₂ =>
      rw [hnext] at hnext'
      cases hnext'
      rw [ih h₂]
    | skip hnext' hskip =>
      rw [hnext] at hnext'
      cases hnext'
      rw [hkeep _ rfl] at hskip
      cases hskip
  | skip hnext hskip hpop _ ih =>
    cases h₂ with
    | stop hnext' => rw [hnext] at hnext'; cases hnext'
    | step hnext' hkeep =>
      rw [hnext] at hnext'
      cases hnext'
      rw [hkeep _ rfl] at hskip
      cases hskip
    | skip hnext' _ hpop' h₂ =>
      rw [hnext] at hnext'
      cases hnext'
      rw [hpop] at hpop'
      cases hpop'
      rw [ih h₂]

/-- Walks that go on in the same way give the same steps. -/
theorem Runs.congr (h : Runs next? skips v ss) (hnext : next? w = next? v) :
    Runs next? skips w ss := by
  cases h with
  | stop h => exact .stop (hnext.trans h)
  | step h hkeep hrest => exact .step (hnext.trans h) hkeep hrest
  | skip h hskip hpop hrest => exact .skip (hnext.trans h) hskip hpop hrest

end

section
variable {skips : Node → Bool} {n : Node} {outer : List (Node × List Element)} {steps : List Step}

/-- Where a node is entered the walk gives what is left of it, and then goes on behind it. -/
theorem runs_pruned {w : Walk} (hnext : w.next? = some (.enter n, ⟨none, (n, n.elements) :: outer⟩))
    (hbelow : ∀ steps, Runs next? skips ⟨none, (n, []) :: outer⟩ steps →
      Runs next? skips ⟨none, (n, n.elements) :: outer⟩
        (Step.prune skips (n.walkFrom 0 n.children) ++ steps))
    (h : Runs next? skips ⟨none, outer⟩ steps) : Runs next? skips w (n.pruned skips ++ steps) := by
  rw [Node.pruned]
  by_cases hskip : skips n = true
  · rw [if_pos hskip]
    exact .skip hnext hskip rfl h
  · have hleave : Runs next? skips ⟨none, (n, []) :: outer⟩ (.leave n :: steps) :=
      .step rfl (fun _ heq => by cases heq) h
    rw [if_neg hskip, List.cons_append, List.append_assoc]
    refine .step hnext (fun m heq => ?_) (hbelow _ hleave)
    obtain rfl := Step.enter.inj heq
    exact Bool.eq_false_iff.2 hskip

mutual

theorem runs_prune_walkOf (n : Node) (slot : Nat) (i : Item)
    (hlaid : ∀ m ∈ n.nodesOf slot i, m.LaidOut)
    {more : List Element} {outer : List (Node × List Element)} {steps : List Step}
    (h : Runs next? skips ⟨none, (n, more) :: outer⟩ steps) :
    Runs next? skips ⟨none, (n, n.element slot i :: more) :: outer⟩
      (Step.prune skips (n.walkOf slot i) ++ steps) := by
  cases i with
  | token c =>
    rw [Node.walkOf, Step.prune, Step.prune]
    exact .step rfl (fun _ heq => by cases heq) h
  | node info children =>
    rw [Node.prune_walkOf_node hlaid]
    rw [Node.nodesOf, List.forall_mem_cons] at hlaid
    refine runs_pruned rfl (fun steps hsteps => ?_) h
    have hbelow := runs_prune_walkFrom (n.child slot info children) 0 children hlaid.2 hsteps
    rw [List.append_nil] at hbelow
    rw [Node.elements_eq]
    exact hbelow

/-- With the children from some place on still to come, a walk gives the pruned walk through them
and then goes on. -/
theorem runs_prune_walkFrom (n : Node) (slot : Nat) (is : List Item)
    (hlaid : ∀ m ∈ n.nodesFrom slot is, m.LaidOut) {more : List Element}
    {outer : List (Node × List Element)} {steps : List Step}
    (h : Runs next? skips ⟨none, (n, more) :: outer⟩ steps) :
    Runs next? skips ⟨none, (n, n.elementsFrom slot is ++ more) :: outer⟩
      (Step.prune skips (n.walkFrom slot is) ++ steps) := by
  cases is with
  | nil =>
    rw [Node.walkFrom, Step.prune]
    exact h
  | cons i is =>
    rw [Node.nodesFrom, List.forall_mem_append] at hlaid
    rw [Node.walkFrom, Node.prune_walkOf_append n slot i hlaid.1, List.append_assoc]
    exact runs_prune_walkOf n slot i hlaid.1 (runs_prune_walkFrom n (slot + 1) is hlaid.2 h)

end

/-- **A walk with skips gives the pruned walk.** -/
theorem runs_prune (skips : Node → Bool) (h : ∀ m ∈ n.descendants, m.LaidOut) :
    Runs next? skips (start n) (Step.prune skips n.walk) := by
  rw [Node.descendants, List.forall_mem_cons] at h
  have hwalk := Node.prune_walk_append skips h.1 [] (Node.prune_walkFrom_append n 0 _ h.2)
  rw [Step.prune, List.append_nil] at hwalk
  rw [hwalk]
  refine runs_pruned rfl (fun steps hsteps => ?_) (.stop rfl)
  have hbelow := runs_prune_walkFrom n 0 n.children h.2 hsteps
  rwa [List.append_nil, ← Node.elements_eq] at hbelow

/-! ## Nodes alone -/

/-- A step that enters or leaves a node is the next one that is no token. -/
theorem stepNode?_eq (w : Walk) : w.stepNode? =
    match w.next? with
    | some (.token _, v) => v.stepNode?
    | other => other := by
  rw [stepNode?, nextNode?]
  cases hnext : w.next? with
  | none => rfl
  | some taken =>
    obtain ⟨s, v⟩ := taken
    cases s with
    | enter n => rfl
    | leave n => rfl
    | token t =>
      -- only a child of the innermost node can be a token, and then it is one less
      have hahead : w.tokensAhead = v.tokensAhead + 1 := by
        obtain ⟨pending, entered⟩ := w
        match entered, hnext with
        | [], hnext => cases pending <;> cases hnext
        | (n, []) :: outer, hnext => cases hnext
        | (n, .token t :: more) :: outer, hnext =>
          cases hnext
          rfl
        | (n, .node c :: more) :: outer, hnext => cases hnext
      show nextNode? w.tokensAhead v = v.stepNode?
      rw [hahead, stepNode?]

/-- **Without its tokens a walk gives the other steps**, with the same skips. -/
theorem Runs.nodes {w : Walk} {ss : List Step} (h : Runs next? skips w ss) :
    Runs stepNode? skips w (ss.filter fun s => !s.isToken) := by
  induction h with
  | @stop w hnext => exact .stop (by rw [stepNode?_eq, hnext])
  | @step w v s ss hnext hkeep _ ih =>
    cases s with
    | token t => exact ih.congr (by rw [stepNode?_eq, hnext])
    | enter n => exact .step (by rw [stepNode?_eq, hnext]) hkeep ih
    | leave n => exact .step (by rw [stepNode?_eq, hnext]) hkeep ih
  | @skip w v u n ss hnext hskip hpop _ ih =>
    exact .skip (by rw [stepNode?_eq, hnext]) hskip hpop ih

/-- What skipping does to a walk from a node which gives the `full` steps without it: the pruned
steps come, and no others, and they are nested. -/
structure Prunes (next? : Walk → Option (Step × Walk)) (skips : Node → Bool) (n : Node)
    (full : List Step) : Prop where
  unskipped : Runs next? (fun _ => false) (start n) full
  skipped : ∀ steps, Runs next? skips (start n) steps ↔ steps = Step.prune skips full
  nested : Step.Nested skips (Step.prune skips full)

theorem prunes_walk (h : ∀ m ∈ n.descendants, m.LaidOut) (skips : Node → Bool) :
    Prunes next? skips n n.walk := by
  have hfull := runs_prune (fun _ => false) h
  rw [Step.prune_false] at hfull
  have hruns := runs_prune skips h
  refine ⟨hfull, fun steps => ⟨fun hsteps => hsteps.unique hruns, fun heq => heq ▸ hruns⟩, ?_⟩
  rw [Node.descendants, List.forall_mem_cons] at h
  have hwalk := Node.prune_walk_append skips h.1 [] (Node.prune_walkFrom_append n 0 _ h.2)
  rw [List.append_nil, Step.prune, List.append_nil] at hwalk
  rw [hwalk]
  exact Node.nested_pruned (Node.nested_prune_walkFrom n 0 _ h.2)

theorem Prunes.nodes {full : List Step} (h : Prunes next? skips n full) :
    Prunes stepNode? skips n (full.filter fun s => !s.isToken) := by
  have hruns := ((h.skipped _).2 rfl).nodes
  rw [← Step.prune_filter] at hruns
  refine ⟨h.unskipped.nodes,
    fun steps => ⟨fun hsteps => hsteps.unique hruns, fun heq => heq ▸ hruns⟩, ?_⟩
  rw [Step.prune_filter]
  exact h.nested.filter

end

end Walk

end Tree

/-- **Walks that skip.**  Whatever nodes are skipped right behind the step that enters them, a walk
from a node of a tree gives all of its steps but those strictly below the skipped nodes and those
that leave them; no skip fails, and every other node that is entered is left again, innermost first.
So it is with the tokens and without them. -/
theorem skipping_of_built [Alphabet] {tree : Tree}
    (h : (∃ limits text diagnostics, parseWithin limits text = .ok ⟨tree, diagnostics⟩) ∨
      ∃ text events, Tree.ofEvents? text events = .ok tree) :
    ∀ n ∈ tree.root.descendants, ∀ skips : Tree.Node → Bool,
      Tree.Walk.Prunes Tree.Walk.next? skips n n.walk ∧
      Tree.Walk.Prunes Tree.Walk.stepNode? skips n (n.walk.filter fun s => !s.isToken) := by
  obtain ⟨text, root, rfl⟩ := Tree.exists_stem_of_built h
  intro n hn skips
  have hlaid : ∀ m ∈ n.descendants, m.LaidOut := fun m hm =>
    Tree.laidOut_ofStem text root m (Tree.Node.mem_descendants_trans hm hn)
  have hprunes := Tree.Walk.prunes_walk hlaid skips
  exact ⟨hprunes, hprunes.nodes⟩

/-- A walk through a call that leaves out its arguments. -/
theorem skipping_of_built_arguments : ∃ p, parseWithin {} "f(a)(b);".toList = .ok p ∧
    Tree.Walk.Prunes Tree.Walk.stepNode? (fun n => n.kind == .argList) p.tree.root
      (p.tree.root.walk.filter fun s => !s.isToken) := by
  obtain ⟨p, hp, -⟩ := exists_parseWithin (Limits.endless_maxDepth _) "f(a)(b);".toList
  exact ⟨p, hp, (skipping_of_built (.inl ⟨_, _, _, hp⟩) p.tree.root List.mem_cons_self _).2⟩

end ActionScript
