import ActionScript.Proofs.Lossless
import ActionScript.Proofs.Recording.Runs

/-!
# Parsing by a record comes to the same

A parse with a record ends without a fault, whatever the text and the limits: it gives what the
parse without one gives.  If nothing stops it, that is a tree, and the tree loses nothing.

* `Recorder.parse_cases`: the record gives the same tree, or the same reason for none.
* `parse_lossless`: **every text has a tree, and that loses nothing.**
-/

set_option autoImplicit false

namespace ActionScript

/-- A record whose events make up a tree gives that tree. -/
theorem Recorder.finish_eq {r : Recorder} {text : Text} {events : List Event} {tree : Tree}
    (harmed : r.armed = []) (ha : r.reader.aborted = none)
    (hsettle : Entry.settle r.entries = .ok events)
    (htree : Tree.ofEvents? text events = .ok tree) :
    r.finish text = .ok (.ok ⟨tree, r.reader.reports.reverse⟩) := by
  simp [Recorder.finish, harmed, ha, hsettle, htree, bind, Except.bind]

/-- **Parsing by a record gives what parsing gives**, whatever the text and the limits. -/
theorem Recorder.parse_cases [Alphabet] (limits : Limits) (text : Text) :
    (∃ p, parseWithin limits text = .ok p ∧ Recorder.parse limits text = .ok (.ok p)) ∨
    ∃ reason, parseWithin limits text = .error (.aborted reason) ∧
      Recorder.parse limits text = .ok (.error reason) := by
  obtain ⟨r, hrun, hreader, harmed, hsettle⟩ := Recorder.run_eq limits text
  have hparse : Recorder.parse limits text = r.finish text := by
    rw [Recorder.parse, hrun]
    rfl
  have haborted : r.reader.aborted = (State.run limits text).aborted := by
    rw [hreader]
    rfl
  cases ha : (State.run limits text).aborted with
  | some reason =>
    refine .inr ⟨reason, ?_, ?_⟩
    · simp only [parseWithin, ha]
    · rw [hparse, Recorder.finish, harmed, haborted, ha]
      rfl
  | none =>
    obtain ⟨modes, kids, last, hout⟩ := State.run_outcome ha
    have hp := hout.parseWithin_eq ha
    refine .inl ⟨_, hp, ?_⟩
    -- both build the tree from the same events
    simp only [parseWithin, ha] at hp
    split at hp
    · rename_i tree htree
      rw [hparse, Recorder.finish_eq harmed (haborted.trans ha) hsettle htree,
        ← Except.ok.inj hp, hreader]
      rfl
    · cases hp

/-- **Parsing loses nothing and never fails.**  Whatever the text and the limit on nesting, the
parse gives a tree, and no routine of the grammar finds another token than the one it requires.
Recorded, it gives that tree, too: each node that is started is completed, each link leads to a
start, and what the record is told as are the events of the shapes.  The tokens of the tree follow
on each other from the first character to the last and make up the text.  The last one is the end of
the text, the only one of its kind and without any text, right under a root that takes in the whole
text. -/
theorem parse_lossless [Alphabet] (text : Text) (depth : Nat) :
    ∃ p, parseWithin { maxDepth := depth } text = .ok p ∧
      (State.run { maxDepth := depth } text).broken = false ∧
      Recorder.parse { maxDepth := depth } text = .ok (.ok p) ∧
      (∃ r, Recorder.run { maxDepth := depth } text = .ok r ∧ r.armed = [] ∧
        Entry.settle r.entries =
          .ok (Shape.eventsAll (State.run { maxDepth := depth } text).children.reverse)) ∧
      p.tree.text = text ∧
      Leaf.Contiguous 0 (p.tree.tokens.map Tree.Token.leaf) text.size ∧
      p.tree.tokens.flatMap (fun t => t.leaf.text) = text ∧
      p.tree.root.kind = .sourceFile ∧ p.tree.root.fullSpan = ⟨0, text.size⟩ ∧
      ∃ before last, p.tree.tokens = before ++ [last] ∧
        (∀ t ∈ before, t.kind ≠ .eof) ∧ last.kind = .eof ∧ last.span = .point text.size ∧
        p.tree.root.elements.getLast? = some (.token last) := by
  obtain ⟨p, hp, -⟩ := exists_parseWithin (Limits.endless_maxDepth depth) text
  obtain ⟨modes, kids, last, hout, -⟩ := exists_outcome hp
  obtain ⟨r, hrun, -, harmed, hsettle⟩ := Recorder.run_eq { maxDepth := depth } text
  have hrecorded : Recorder.parse { maxDepth := depth } text = .ok (.ok p) := by
    rcases Recorder.parse_cases { maxDepth := depth } text with ⟨q, hq, hrecorded⟩ | ⟨reason, hq, -⟩
    · rw [hp, Except.ok.injEq] at hq
      rwa [hq]
    · rw [hp] at hq
      cases hq
  exact ⟨p, hp, hout.unbroken, hrecorded, ⟨r, hrun, harmed, hsettle⟩, lossless_of_parseWithin hp⟩

end ActionScript
