import Mathlib.Order.Basic
import ActionScript.Proofs.Outcome
import ActionScript.Proofs.Replay

/-!
# The limit on nodes

Nodes are counted as they are begun, before it is known what becomes of them.  Every node that is
begun is one node of the tree in the end, so the limit is reached exactly if the tree would have
more nodes; up to there a parse under the limit does what the one without it does.

* `State.Counts`: from one state to another as many nodes are begun as are made.
* `State.Follows`: a run under the limit is the run without it, or was stopped for the limit.
* `State.follows_exec`: every parser keeps to that, if the rules do.
* `parseWithin_nodeLimit`: the limit is exact, and has no other effect.
-/

set_option autoImplicit false

namespace ActionScript

/-! ## Counting nodes -/

namespace Shape

@[simp] theorem nodeCount_withField (f : Field) (s : Shape) :
    (s.withField f).nodeCount = s.nodeCount := by
  cases s <;> rfl

theorem nodeCountAll_append (ss ts : List Shape) :
    nodeCountAll (ss ++ ts) = nodeCountAll ss + nodeCountAll ts := by
  induction ss with
  | nil => exact (Nat.zero_add _).symm
  | cons s ss ih => rw [List.cons_append, nodeCountAll, nodeCountAll, ih, Nat.add_assoc]

@[simp] theorem nodeCountAll_reverse (ss : List Shape) :
    nodeCountAll ss.reverse = nodeCountAll ss := by
  induction ss with
  | nil => rfl
  | cons s ss ih =>
    rw [List.reverse_cons, nodeCountAll_append, ih, nodeCountAll, nodeCountAll, nodeCountAll,
      Nat.add_zero, Nat.add_comm]

@[simp] theorem nodeCountAll_map_withField (f : Field) (ss : List Shape) :
    nodeCountAll (ss.map (withField f)) = nodeCountAll ss := by
  induction ss with
  | nil => rfl
  | cons s ss ih => rw [List.map_cons, nodeCountAll, nodeCountAll, ih, nodeCount_withField]

end Shape

namespace Tree.Node

mutual

theorem length_nodesOf (n : Node) (slot : Nat) (p : Progress) (s : Shape) :
    (n.nodesOf slot (p.lay s).1).length = s.nodeCount := by
  cases s with
  | token kind field leading text trailing =>
    rw [Progress.lay, nodesOf, Shape.nodeCount]
    rfl
  | node kind field children =>
    rw [Progress.lay, nodesOf, Shape.nodeCount, List.length_cons, length_nodesFrom, Nat.add_comm]

/-- Laying out neither loses a node nor adds one. -/
theorem length_nodesFrom (n : Node) (slot : Nat) (p : Progress) (ss : List Shape) :
    (n.nodesFrom slot (p.layAll ss).1).length = Shape.nodeCountAll ss := by
  cases ss with
  | nil =>
    rw [Progress.layAll, nodesFrom, Shape.nodeCountAll]
    rfl
  | cons s ss =>
    rw [Progress.layAll, nodesFrom, Shape.nodeCountAll, List.length_append, length_nodesOf,
      length_nodesFrom]

end

end Tree.Node

/-! ## Every node that is begun is made -/

namespace State

section
variable (s : State) (limits : Limits)

@[simp] theorem abort_begun (reason : Abort) : (s.abort reason).begun = s.begun := by
  unfold abort; split <;> rfl

@[simp] theorem enter_begun (children : List Shape) :
    (s.enter limits children).begun = s.begun + 1 := by
  simp only [enter, beginNode]
  split
  · split
    · exact abort_begun _ _
    · rfl
  · rfl

@[simp] theorem takeAs_begun [Alphabet] (kind : Kind) (field : Option Field) :
    (s.takeAs limits kind field).begun = s.begun := by
  simp only [takeAs]
  split
  · exact abort_begun _ _
  · rfl

@[simp] theorem report_begun [Alphabet] (error : SyntaxError) :
    (s.report error).begun = s.begun := by
  unfold report; split <;> rfl

@[simp] theorem labelLast_begun (field : Field) : (s.labelLast field).begun = s.begun := by
  unfold labelLast; split <;> rfl

end

/-- From `s` to `t` as many nodes are begun as are made. -/
structure Counts (s t : State) : Prop where
  begun_le : s.begun ≤ t.begun
  count_eq :
    t.begun + Shape.nodeCountAll s.children = s.begun + Shape.nodeCountAll t.children

namespace Counts

variable {s t u : State}

theorem trans (h₁ : s.Counts t) (h₂ : t.Counts u) : s.Counts u := by
  obtain ⟨hle₁, heq₁⟩ := h₁
  obtain ⟨hle₂, heq₂⟩ := h₂
  exact ⟨by omega, by omega⟩

/-- Nothing is begun, and the children have the same nodes. -/
theorem of_eq (hb : t.begun = s.begun)
    (hc : Shape.nodeCountAll t.children = Shape.nodeCountAll s.children) : s.Counts t :=
  ⟨Nat.le_of_eq hb.symm, by rw [hb, hc]⟩

theorem refl (s : State) : s.Counts s := of_eq rfl rfl

theorem takeAs [Alphabet] (s : State) (limits : Limits) (kind : Kind) (field : Option Field) :
    s.Counts (s.takeAs limits kind field) :=
  of_eq (by simp) (by rw [takeAs_children]; exact Nat.zero_add _)

theorem labelLast (s : State) (field : Field) : s.Counts (s.labelLast field) := by
  refine of_eq (by simp) ?_
  cases hs : s.children with
  | nil => simp [State.labelLast, hs]
  | cons child outer =>
    rw [labelLast_children s field hs, Shape.nodeCountAll, Shape.nodeCountAll,
      Shape.nodeCount_withField]

/-- A node is made of what was made inside it and of what it took over. -/
theorem close {inner outer : List Shape} {limits : Limits} {kind : Kind}
    (hchildren : Shape.nodeCountAll inner + Shape.nodeCountAll outer =
      Shape.nodeCountAll s.children)
    (h : (s.enter limits inner).Counts t) : s.Counts (t.close outer kind) := by
  obtain ⟨hle, heq⟩ := h
  rw [enter_begun] at hle heq
  rw [enter_children] at heq
  have hnodes : Shape.nodeCountAll (t.close outer kind).children =
      1 + Shape.nodeCountAll t.children + Shape.nodeCountAll outer := by
    rw [close_children, Shape.nodeCountAll, Shape.nodeCount, Shape.nodeCountAll_reverse]
  have hbegun : (t.close outer kind).begun = t.begun := rfl
  exact ⟨by omega, by omega⟩

theorem repeatWhile {step : State → Bool × State} (hstep : ∀ s : State, s.Counts (step s).2)
    (limit : Nat) (s : State) : s.Counts (repeatWhile step limit s) := by
  induction limit generalizing s with
  | zero => exact of_eq rfl rfl
  | succ limit ih =>
    have hs := hstep s
    rw [State.repeatWhile]
    split
    · rename_i t ht
      rw [ht] at hs
      have hnote : s.Counts (s.noteStall t) := ⟨hs.begun_le, hs.count_eq⟩
      exact hnote.trans (ih _)
    · rename_i t ht
      rw [ht] at hs
      exact hs

end Counts

variable [Alphabet]

/-- **Every parser makes the nodes that it begins**, if the rules do. -/
theorem counts_exec {limits : Limits} {apply : Rule → State → State}
    (happly : ∀ rule s, State.Counts s (apply rule s)) {α : Type} (p : Parser α) (s : State) :
    s.Counts (p.exec limits apply s).2 := by
  induction p generalizing s with
  | done value => exact .refl s
  | andThen first next ihFirst ihNext => exact (ihFirst s).trans (ihNext _ _)
  | look mode => exact .of_eq rfl rfl
  | ahead distance => exact .of_eq rfl rfl
  | take field => exact .takeAs s _ _ _
  | takeWord keyword field => exact .takeAs s _ _ _
  | report error => exact .of_eq (by simp [Parser.exec]) (by simp [Parser.exec])
  | node body ih => exact .close (Nat.zero_add _) (ih _)
  | wrap field body ih =>
    refine .close ?_ (ih _)
    rw [Shape.nodeCountAll_map_withField, ← Shape.nodeCountAll_append, List.take_append_drop]
  | label field => exact .labelLast s field
  | loop body ih => exact .repeatWhile ih _ s
  | call rule => exact happly rule s
  | require mode kind => exact .of_eq rfl rfl

theorem counts_apply (limits : Limits) (depth : Nat) (rule : Rule) (s : State) :
    s.Counts (State.apply limits depth rule s) := by
  induction depth generalizing rule s with
  | zero => exact counts_exec (fun _ s => .refl s) _ s
  | succ depth ih => exact counts_exec ih _ s

/-- The nodes begun in a whole parse are those of its shapes. -/
theorem run_begun (limits : Limits) (text : Text) :
    (State.run limits text).begun = Shape.nodeCountAll (State.run limits text).children := by
  obtain ⟨-, heq⟩ : (State.start text).Counts (State.run limits text) :=
    counts_exec (counts_apply limits _) _ _
  simpa [State.start, Shape.nodeCountAll] using heq

end State

/-! ## What is stopped stays stopped -/

namespace State

/-- A state in which the parse was stopped for a reason. -/
def Stopped (reason : Abort) (s : State) : Prop := s.aborted = some reason

namespace Stopped

variable {reason : Abort} {s : State}

theorem abort (h : Stopped reason s) (other : Abort) : Stopped reason (s.abort other) := by
  have ha : s.aborted = some reason := h
  rw [State.abort, ha]
  exact h

theorem enter (h : Stopped reason s) (limits : Limits) (children : List Shape) :
    Stopped reason (s.enter limits children) := by
  have hbegun : Stopped reason { s with begun := s.begun + 1 } := h
  simp only [State.enter, beginNode]
  split
  · split
    · exact hbegun.abort _
    · exact h
  · exact h

theorem takeAs [Alphabet] (h : Stopped reason s) (limits : Limits) (kind : Kind)
    (field : Option Field) :
    Stopped reason (s.takeAs limits kind field) := by
  simp only [State.takeAs]
  split
  · refine Stopped.abort ?_ _
    exact h
  · exact h

theorem repeatWhile {step : State → Bool × State}
    (hstep : ∀ s, Stopped reason s → Stopped reason (step s).2) (limit : Nat)
    (h : Stopped reason s) : Stopped reason (repeatWhile step limit s) := by
  induction limit generalizing s with
  | zero => exact h
  | succ limit ih =>
    have hs := hstep s h
    rw [State.repeatWhile]
    split
    · rename_i t ht
      rw [ht] at hs
      have hnote : Stopped reason (s.noteStall t) := hs
      exact ih hnote
    · rename_i t ht
      rw [ht] at hs
      exact hs

end Stopped

/-- **No parser takes a stop back**, nor changes its reason, if no rule does. -/
theorem stopped_exec [Alphabet] {limits : Limits} {apply : Rule → State → State} {reason : Abort}
    (happly : ∀ rule s, Stopped reason s → Stopped reason (apply rule s)) {α : Type} (p : Parser α)
    {s : State} (h : Stopped reason s) : Stopped reason (p.exec limits apply s).2 := by
  induction p generalizing s with
  | done value => exact h
  | andThen first next ihFirst ihNext => exact ihNext _ (ihFirst h)
  | look mode => exact h
  | ahead distance => exact h
  | take field => exact h.takeAs _ _ _
  | takeWord keyword field => exact h.takeAs _ _ _
  | report error => exact (report_aborted s error).trans h
  | node body ih => exact ih (h.enter limits _)
  | wrap field body ih => exact ih (h.enter limits _)
  | label field => exact (labelLast_aborted s field).trans h
  | loop body ih => exact .repeatWhile (fun s hs => ih hs) _ h
  | call rule => exact happly rule s h
  | require mode kind => exact h

theorem stopped_apply [Alphabet] {reason : Abort} (limits : Limits) (depth : Nat)
    (rule : Rule) {s : State}
    (h : Stopped reason s) : Stopped reason (State.apply limits depth rule s) := by
  induction depth generalizing rule s with
  | zero => exact stopped_exec (fun _ _ h => h) _ h
  | succ depth ih => exact stopped_exec (fun rule _ h => ih rule h) _ h

end State

/-! ## Two runs -/

/-- The same limits, with one on the number of nodes. -/
def Limits.capped (limits : Limits) (cap : Nat) : Limits := { limits with maxNodes := some cap }

namespace State

/-- What a run under a limit on nodes gives, `a`, compared with what the run without it gives, `b`:
the same and within the limit, or a stop for a limit that the other run has passed. -/
def Follows {α : Type} (cap : Nat) (a b : α × State) : Prop :=
  (a = b ∧ b.2.begun ≤ cap) ∨ (Stopped (.nodeLimit cap) a.2 ∧ cap < b.2.begun)

/-- A state from which the two runs can be compared. -/
structure Fresh (cap : Nat) (s : State) : Prop where
  aborted : s.aborted = none
  begun_le : s.begun ≤ cap

section
variable {limits : Limits} {cap : Nat} {s : State}

/-- A node within the limit is entered as it would be without the limit. -/
theorem enter_capped (h : limits.Endless) (hle : s.begun + 1 ≤ cap) (children : List Shape) :
    s.enter (limits.capped cap) children = s.enter limits children := by
  simp only [enter, beginNode, Limits.capped, h.1, if_neg (Nat.not_lt.2 hle)]

/-- A node beyond the limit stops the parse. -/
theorem stopped_enter_capped (ha : s.aborted = none) (hlt : cap < s.begun + 1)
    (children : List Shape) : Stopped (.nodeLimit cap) (s.enter (limits.capped cap) children) := by
  simp only [Stopped, enter, beginNode, Limits.capped, if_pos hlt, State.abort, ha]

theorem Fresh.enter (h : limits.Endless) (hs : Fresh cap s) (hle : s.begun + 1 ≤ cap)
    (children : List Shape) : Fresh cap (s.enter limits children) :=
  ⟨(enter_aborted h s children).trans hs.aborted, by rwa [enter_begun]⟩

end

/-- Rules under the limit and the same rules without it. -/
structure Shadows (limits : Limits) (cap : Nat) (under free : Rule → State → State) : Prop where
  follows : ∀ rule s, Fresh cap s → Follows cap ((), under rule s) ((), free rule s)
  stopped : ∀ rule s, Stopped (.nodeLimit cap) s → Stopped (.nodeLimit cap) (under rule s)
  aborted : ∀ rule s, (free rule s).aborted = s.aborted
  counts : ∀ rule s, State.Counts s (free rule s)

section
variable {limits : Limits} {cap : Nat} {under free : Rule → State → State}

/-- The step of a repetition under the limit follows that of the one without it; so do the
repetitions. -/
theorem Follows.repeatWhile {stepUnder stepFree : State → Bool × State}
    (hfollows : ∀ s, Fresh cap s → Follows cap (stepUnder s) (stepFree s))
    (hstopped : ∀ s, Stopped (.nodeLimit cap) s → Stopped (.nodeLimit cap) (stepUnder s).2)
    (haborted : ∀ s, (stepFree s).2.aborted = s.aborted)
    (hcounts : ∀ s : State, s.Counts (stepFree s).2) (limit : Nat) {s : State} (hs : Fresh cap s) :
    Follows cap ((), repeatWhile stepUnder limit s) ((), repeatWhile stepFree limit s) := by
  induction limit generalizing s with
  | zero => exact .inl ⟨rfl, hs.begun_le⟩
  | succ limit ih =>
    have hnone := haborted s
    have hbegun := (hcounts s).begun_le
    rcases hfollows s hs with ⟨heq, hle⟩ | ⟨hstop, hlt⟩
    · rw [State.repeatWhile, State.repeatWhile, heq]
      split
      · rename_i t ht
        rw [ht] at hnone hle
        have hfresh : Fresh cap (s.noteStall t) := ⟨hnone.trans hs.aborted, hle⟩
        exact ih hfresh
      · rename_i t ht
        rw [ht] at hle
        exact .inl ⟨rfl, hle⟩
    · right
      rw [State.repeatWhile, State.repeatWhile]
      constructor
      · split
        · rename_i t ht
          rw [ht] at hstop
          have hnote : Stopped (.nodeLimit cap) (s.noteStall t) := hstop
          exact hnote.repeatWhile hstopped limit
        · rename_i t ht
          rw [ht] at hstop
          exact hstop
      · split
        · rename_i t ht
          rw [ht] at hlt
          exact Nat.lt_of_lt_of_le hlt (Counts.repeatWhile hcounts limit (s.noteStall t)).begun_le
        · rename_i t ht
          rw [ht] at hlt
          exact hlt

/-- Inside a node the runs are compared as outside: it is entered alike, or it is the one that goes
beyond the limit. -/
theorem Follows.close [Alphabet] (h : limits.Endless)
    (hrules : Shadows limits cap under free) {α : Type}
    {body : Parser α} {inner : List Shape} {s : State} (hs : Fresh cap s)
    (hbody : ∀ t, Fresh cap t →
      Follows cap (body.exec (limits.capped cap) under t) (body.exec limits free t))
    {β : Type} (finish : α × State → β × State)
    (hstopped : ∀ a, (finish a).2.aborted = a.2.aborted)
    (hbegun : ∀ a, (finish a).2.begun = a.2.begun) :
    Follows cap (finish (body.exec (limits.capped cap) under (s.enter (limits.capped cap) inner)))
      (finish (body.exec limits free (s.enter limits inner))) := by
  by_cases hle : s.begun + 1 ≤ cap
  · rw [enter_capped h hle]
    rcases hbody _ (hs.enter h hle inner) with ⟨heq, hb⟩ | ⟨hstop, hlt⟩
    · exact .inl ⟨congrArg finish heq, by rwa [hbegun]⟩
    · exact .inr ⟨(hstopped _).trans hstop, by rwa [hbegun]⟩
  · refine .inr ⟨(hstopped _).trans ?_, ?_⟩
    · exact stopped_exec hrules.stopped body
        (stopped_enter_capped hs.aborted (Nat.lt_of_not_le hle) inner)
    · have hle' : (s.enter limits inner).begun ≤
          (body.exec limits free (s.enter limits inner)).2.begun :=
        (counts_exec hrules.counts body _).begun_le
      rw [enter_begun] at hle'
      rw [hbegun]
      omega

/-- **A parser under the limit follows the one without it**, if the rules do. -/
theorem follows_exec [Alphabet] (h : limits.Endless)
    (hrules : Shadows limits cap under free) {α : Type}
    (p : Parser α) {s : State} (hs : Fresh cap s) :
    Follows cap (p.exec (limits.capped cap) under s) (p.exec limits free s) := by
  induction p generalizing s with
  | done value => exact .inl ⟨rfl, hs.begun_le⟩
  | andThen first next ihFirst ihNext =>
    have hnone := exec_aborted h hrules.aborted first s
    rw [Parser.exec, Parser.exec]
    rcases ihFirst hs with ⟨heq, hle⟩ | ⟨hstop, hlt⟩
    · rw [heq]
      exact ihNext _ ⟨hnone.trans hs.aborted, hle⟩
    · right
      exact ⟨stopped_exec hrules.stopped _ hstop,
        Nat.lt_of_lt_of_le hlt (counts_exec hrules.counts _ _).begun_le⟩
  | look mode => exact .inl ⟨rfl, hs.begun_le⟩
  | ahead distance => exact .inl ⟨rfl, hs.begun_le⟩
  | take field => exact .inl ⟨rfl, (takeAs_begun s limits _ _).trans_le hs.begun_le⟩
  | takeWord keyword field => exact .inl ⟨rfl, (takeAs_begun s limits _ _).trans_le hs.begun_le⟩
  | report error => exact .inl ⟨rfl, (report_begun s error).trans_le hs.begun_le⟩
  | node body ih =>
    exact .close h hrules hs (fun t ht => ih ht)
      (fun a => (a.1.2, a.2.close s.children a.1.1)) (fun _ => rfl) fun _ => rfl
  | wrap field body ih =>
    exact .close h hrules hs (fun t ht => ih ht)
      (fun a => ((), a.2.close (s.children.drop 1) a.1)) (fun _ => rfl) fun _ => rfl
  | label field => exact .inl ⟨rfl, (labelLast_begun s field).trans_le hs.begun_le⟩
  | loop body ih =>
    exact .repeatWhile (fun t ht => ih ht) (fun t ht => stopped_exec hrules.stopped body ht)
      (exec_aborted h hrules.aborted body) (counts_exec hrules.counts body) _ hs
  | call rule => exact hrules.follows rule s hs
  | require mode kind => exact .inl ⟨rfl, hs.begun_le⟩

end

/-- The rules under the limit follow those without it, at every depth. -/
theorem shadows_apply [Alphabet] {limits : Limits} (h : limits.Endless) (cap depth : Nat) :
    Shadows limits cap (State.apply (limits.capped cap) depth) (State.apply limits depth) := by
  refine ⟨?_, fun rule s hs => stopped_apply _ depth rule hs, apply_aborted h depth,
    counts_apply limits depth⟩
  induction depth with
  | zero =>
    have hgiven : Shadows limits cap (fun _ s => s) fun _ s => s :=
      ⟨fun _ _ hs => .inl ⟨rfl, hs.begun_le⟩, fun _ _ h => h, fun _ _ => rfl, fun _ s => .refl s⟩
    exact fun rule s hs => follows_exec h hgiven (.reject .nestingTooDeep) hs
  | succ depth ih =>
    have hrules : Shadows limits cap (State.apply (limits.capped cap) depth)
        (State.apply limits depth) :=
      ⟨ih, fun rule s hs => stopped_apply _ depth rule hs, apply_aborted h depth,
        counts_apply limits depth⟩
    exact fun rule s hs => follows_exec h hrules (Grammar.rule rule) hs

/-- A whole parse under the limit follows the one without it. -/
theorem follows_run [Alphabet] {limits : Limits} (h : limits.Endless) (cap : Nat) (text : Text) :
    Follows cap ((), State.run (limits.capped cap) text) ((), State.run limits text) := by
  have hfresh : Fresh cap (State.start text) := ⟨rfl, Nat.zero_le _⟩
  exact follows_exec h (shadows_apply h cap limits.maxDepth) Grammar.sourceFile hfresh

end State

/-! ## Whole parses -/

theorem Tree.nodeCount_ofStem (text : Text) (root : Stem) :
    (ofStem text root).nodeCount = 1 + Shape.nodeCountAll root.children.reverse :=
  Progress.layAll_nodes _ _

theorem Tree.length_descendants_ofStem (text : Text) (root : Stem) :
    (ofStem text root).root.descendants.length =
      1 + Shape.nodeCountAll root.children.reverse := by
  rw [Node.descendants, List.length_cons, Nat.add_comm]
  exact congrArg (1 + ·) (Node.length_nodesFrom _ _ _ _)

/-- The nodes of the tree of a parse are those that were begun. -/
theorem nodeCount_of_parseWithin [Alphabet] {limits : Limits} {text : Text} {p : Parse}
    (h : parseWithin limits text = .ok p) :
    p.tree.nodeCount = (State.run limits text).begun ∧
      p.tree.root.descendants.length = (State.run limits text).begun := by
  have ha := aborted_of_parseWithin h
  obtain ⟨modes, kids, last, hout⟩ := State.run_outcome ha
  rw [hout.parseWithin_eq ha, Except.ok.injEq] at h
  subst h
  have hbegun : (State.run limits text).begun = 1 +
      Shape.nodeCountAll (kids ++ [.token .eof none last.leading last.text last.trailing]) := by
    rw [State.run_begun, hout.children]
    rfl
  rw [Tree.nodeCount_ofStem, Tree.length_descendants_ofStem, List.reverse_reverse, hbegun]
  exact ⟨rfl, rfl⟩

/-- **The limit on nodes is exact, and has no other effect.**  A parse under it is stopped exactly
if the tree of the parse without it has more nodes; otherwise it gives that parse. -/
theorem parseWithin_nodeLimit [Alphabet] (text : Text) (depth cap : Nat) :
    ∃ p, parseWithin { maxDepth := depth } text = .ok p ∧
      (parseWithin { maxDepth := depth, maxNodes := some cap } text =
        .error (.aborted (.nodeLimit cap)) ↔ cap < p.tree.root.descendants.length) ∧
      p.tree.nodeCount = p.tree.root.descendants.length ∧
      (p.tree.root.descendants.length ≤ cap →
        parseWithin { maxDepth := depth, maxNodes := some cap } text = .ok p) := by
  have hfree := Limits.endless_maxDepth depth
  obtain ⟨p, hp, -⟩ := exists_parseWithin hfree text
  obtain ⟨hcount, hlength⟩ := nodeCount_of_parseWithin hp
  refine ⟨p, hp, ?_⟩
  rw [hcount, hlength]
  rcases State.follows_run hfree cap text with ⟨heq, hle⟩ | ⟨hstop, hlt⟩
  · have hrun : State.run { maxDepth := depth, maxNodes := some cap } text =
        State.run { maxDepth := depth } text := congrArg Prod.snd heq
    have hparse : parseWithin { maxDepth := depth, maxNodes := some cap } text = .ok p := by
      rw [← hp, parseWithin, parseWithin, hrun]
    refine ⟨⟨fun h => ?_, fun h => absurd hle (Nat.not_le.2 h)⟩, rfl, fun _ => hparse⟩
    rw [hparse] at h
    cases h
  · have haborted : (State.run { maxDepth := depth, maxNodes := some cap } text).aborted =
        some (.nodeLimit cap) := hstop
    refine ⟨⟨fun _ => hlt, fun _ => ?_⟩, rfl, fun h => absurd h (Nat.not_le.2 hlt)⟩
    simp only [parseWithin, haborted]

end ActionScript
