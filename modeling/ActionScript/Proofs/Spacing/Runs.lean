import ActionScript.Proofs.Spacing.Blind
import ActionScript.Proofs.Spacing.Tokens
import ActionScript.Proofs.Termination

/-!
# Parses of squeezed texts

A blind parser does on a squeezed text what it does on the text, step by step: it takes the squeezed
tokens, makes the same nodes, reports the same, and is stopped in the same place.

Repetitions are given as many steps as the text at hand has characters, and so fewer on the squeezed
text.  That makes no difference to runs that do not stall, and none does.

* `State.Echoes`: the relation between the two runs, with a lemma for each instruction.
* `Setting.echoes_after`: **blind parsers keep the relation**, if the rules do.
* `State.echoes_run`: **a whole parse of a squeezed text is the squeezed parse.**
-/

set_option autoImplicit false

namespace ActionScript

open ActionScript.Parser ActionScript.Grammar

/-! ## Squeezed shapes -/

namespace Shape

mutual

/-- A shape with a single space for each run of blanks in its tokens. -/
def squeeze : Shape → Shape
  | .token kind field leading text trailing =>
    .token kind field (leading.map Trivia.squeeze) text.squeeze (trailing.map Trivia.squeeze)
  | .node kind field children => .node kind field (squeezeAll children)

/-- The same for several shapes in a row. -/
def squeezeAll : List Shape → List Shape
  | [] => []
  | s :: ss => s.squeeze :: squeezeAll ss

end

theorem squeezeAll_eq_map (ss : List Shape) : squeezeAll ss = ss.map squeeze := by
  induction ss with
  | nil => rw [squeezeAll, List.map_nil]
  | cons s ss ih => rw [squeezeAll, List.map_cons, ih]

theorem squeeze_node (kind : Kind) (field : Option Field) (children : List Shape) :
    (Shape.node kind field children).squeeze = .node kind field (children.map squeeze) := by
  rw [squeeze, squeezeAll_eq_map]

theorem squeeze_withField (f : Field) (s : Shape) :
    (s.withField f).squeeze = s.squeeze.withField f := by
  cases s with
  | token kind field leading text trailing => simp only [withField, squeeze]
  | node kind field children => simp only [withField, squeeze]

end Shape

/-! ## States -/

namespace State

/-- The second state is that of a run on the squeezed text. -/
structure Echoes (s t : State) : Prop where
  rest : t.place.rest = Text.squeeze s.place.rest
  mode : t.mode = s.mode
  children : t.children = s.children.map Shape.squeeze
  causes : t.reports.map Diagnostic.cause = s.reports.map Diagnostic.cause
  begun : t.begun = s.begun
  taken : t.taken = s.taken
  aborted : t.aborted = s.aborted

namespace Echoes

variable {s t : State}

theorem start (text : Text) : (State.start text).Echoes (State.start text.squeeze) :=
  ⟨rfl, rfl, rfl, rfl, rfl, rfl, rfl⟩

theorem inMode (h : s.Echoes t) (mode : Mode) : (s.inMode mode).Echoes (t.inMode mode) :=
  ⟨h.rest, rfl, h.children, h.causes, h.begun, h.taken, h.aborted⟩

theorem abort (h : s.Echoes t) (reason : Abort) : (s.abort reason).Echoes (t.abort reason) := by
  unfold State.abort
  rw [h.aborted]
  split
  · exact h
  · exact ⟨rfl, rfl, h.children, h.causes, h.begun, h.taken, rfl⟩

theorem enter (h : s.Echoes t) (limits : Limits) {outer outer' : List Shape}
    (houter : outer' = outer.map Shape.squeeze) :
    (s.enter limits outer).Echoes (t.enter limits outer') := by
  have hbegun : ({ s with begun := s.begun + 1 } : State).Echoes { t with begun := t.begun + 1 } :=
    ⟨h.rest, h.mode, h.children, h.causes, congrArg (· + 1) h.begun, h.taken, h.aborted⟩
  have hnode : (s.beginNode limits).Echoes (t.beginNode limits) := by
    unfold State.beginNode
    dsimp only
    rw [h.begun] at hbegun ⊢
    split
    · split
      · exact hbegun.abort _
      · exact hbegun
    · exact hbegun
  exact ⟨hnode.rest, hnode.mode, houter, hnode.causes, hnode.begun, hnode.taken, hnode.aborted⟩

theorem close (h : s.Echoes t) {outer outer' : List Shape}
    (houter : outer' = outer.map Shape.squeeze) {kind kind' : Kind} (hkind : kind' = kind) :
    (s.close outer kind).Echoes (t.close outer' kind') := by
  refine ⟨h.rest, h.mode, ?_, h.causes, h.begun, h.taken, h.aborted⟩
  rw [hkind, close_children, close_children, List.map_cons, Shape.squeeze_node, h.children, houter,
    List.map_reverse]

theorem report [Alphabet] (h : s.Echoes t) (error : SyntaxError) :
    (s.report error).Echoes (t.report error) := by
  unfold State.report
  rw [h.aborted]
  split
  · exact h
  · exact ⟨h.rest, h.mode, h.children, congrArg (Cause.syntactic error :: ·) h.causes,
      h.begun, h.taken, rfl⟩

theorem labelLast (h : s.Echoes t) (field : Field) :
    (s.labelLast field).Echoes (t.labelLast field) := by
  have hchildren := h.children
  unfold State.labelLast
  cases hs : s.children with
  | nil =>
    rw [hs, List.map_nil] at hchildren
    rw [hchildren]
    exact h
  | cons c cs =>
    rw [hs, List.map_cons] at hchildren
    rw [hchildren]
    refine ⟨h.rest, h.mode, ?_, h.causes, h.begun, h.taken, h.aborted⟩
    rw [List.map_cons, Shape.squeeze_withField]

/-- The token that is taken is the squeezed one, and so is its flaw. -/
theorem takeAs [Alphabet] (h : s.Echoes t) (limits : Limits) (kind : Kind) (field : Option Field) :
    (s.takeAs limits kind field).Echoes (t.takeAs limits kind field) := by
  obtain ⟨htoken, hrest⟩ := Place.echoes_next h.rest s.mode
  have hstop (late : Bool) {a b : State} (hab : a.Echoes b) :
      (if late then a.abort .deadline else a).Echoes (if late then b.abort .deadline else b) := by
    split
    · exact hab.abort _
    · exact hab
  unfold State.takeAs
  rw [h.mode, h.taken]
  generalize s.place.next s.mode = a at htoken hrest ⊢
  generalize t.place.next s.mode = b at htoken hrest ⊢
  refine hstop _ ⟨hrest, rfl, ?_, ?_, h.begun, rfl, h.aborted⟩
  · rw [List.map_cons, Shape.squeeze, h.children, htoken.leading, htoken.text, htoken.trailing]
  · have hflaw := htoken.flaw
    dsimp only
    cases hs : a.1.flaw with
    | none =>
      cases ht : b.1.flaw with
      | none => exact h.causes
      | some flaw => rw [hs, ht] at hflaw; cases hflaw
    | some flaw =>
      cases ht : b.1.flaw with
      | none => rw [hs, ht] at hflaw; cases hflaw
      | some flaw' =>
        rw [hs, ht] at hflaw
        have herror : flaw'.error = flaw.error := Option.some.inj hflaw
        rw [List.map_cons, List.map_cons, h.causes, herror]

end Echoes

end State

/-- Without the texts of tokens that are no names there is nothing to tell the two runs apart. -/
theorem Token.Echoes.glimpse {a b : Token} (h : a.Echoes b) :
    (State.glimpse b).blur = (State.glimpse a).blur := by
  have hlines := h.startsLine
  by_cases hname : a.kind = .name
  · simp only [State.glimpse, h.kind, h.name hname, hlines]
  · simp [Glimpse.blur, State.glimpse, h.kind, hlines, hname]

/-! ## Runs -/

/-- Where a repetition does not stall, nothing has been noted before. -/
theorem State.unstalled_of_repeatWhile {step : State → Bool × State}
    (hnote : ∀ s : State, s.stalled = true → (step s).2.stalled = true) {limit : Nat} {s u : State}
    (h : (repeatWhile step limit (s.noteStall u)).stalled = false) : u.stalled = false := by
  refine Bool.eq_false_iff.2 fun hu => ?_
  have hnoted : (s.noteStall u).stalled = true := by simp [noteStall, hu]
  rw [stalled_repeatWhile hnote limit _ hnoted] at h
  cases h

/-- Repetitions keep the relation if their step does, also where they are given unlike numbers of
steps. -/
theorem State.echoes_repeatWhile {step : State → Bool × State}
    (hnote : ∀ s : State, s.stalled = true → (step s).2.stalled = true)
    (hstep : ∀ {s t : State}, s.Echoes t → (step s).2.stalled = false → (step t).2.stalled = false →
      (step t).1 = (step s).1 ∧ (step s).2.Echoes (step t).2)
    (m n : Nat) {s t : State} (h : s.Echoes t) (hs : (repeatWhile step m s).stalled = false)
    (ht : (repeatWhile step n t).stalled = false) :
    (repeatWhile step m s).Echoes (repeatWhile step n t) := by
  induction m generalizing n s t with
  | zero => cases hs
  | succ m ih =>
    cases n with
    | zero => cases ht
    | succ n =>
      have hboth := hstep h
      rw [repeatWhile] at hs ht ⊢
      rw [repeatWhile]
      cases hdone : step s with
      | mk goes u =>
        cases hdone' : step t with
        | mk goes' v =>
          rw [hdone] at hs hboth
          rw [hdone'] at ht hboth
          have hu : u.stalled = false := by
            cases goes with
            | true => exact unstalled_of_repeatWhile hnote hs
            | false => exact hs
          have hv : v.stalled = false := by
            cases goes' with
            | true => exact unstalled_of_repeatWhile hnote ht
            | false => exact ht
          obtain ⟨hgoes, hecho⟩ := hboth hu hv
          have hgoes : goes' = goes := hgoes
          subst hgoes
          cases goes' with
          | true =>
            have hnoted : (s.noteStall u).Echoes (t.noteStall v) :=
              ⟨hecho.rest, hecho.mode, hecho.children, hecho.causes, hecho.begun, hecho.taken,
                hecho.aborted⟩
            exact ih n hnoted hs ht
          | false => exact hecho

variable [Alphabet]

namespace Setting

variable {E : Setting} {α : Type}

/-- The note of a stall stays during the run of a rule. -/
def KeepsNotes (E : Setting) : Prop :=
  ∀ (rule : Rule) (s : State), s.stalled = true → (E.apply rule s).stalled = true

/-- The rules keep the relation in runs that do not stall. -/
def Echoes (E : Setting) : Prop := ∀ (rule : Rule) {s t : State}, s.Echoes t →
  (E.apply rule s).stalled = false → (E.apply rule t).stalled = false →
    (E.apply rule s).Echoes (E.apply rule t)

/-- Where a run does not end with the note of a stall, it has not begun with one. -/
theorem KeepsNotes.unstalled (hE : E.KeepsNotes) {p : Parser α} {s : State}
    (h : (E.after p s).stalled = false) : s.stalled = false := by
  refine Bool.eq_false_iff.2 fun hs => ?_
  rw [stalled_after hE p s hs] at h
  cases h

/-- **A blind parser does the same on the squeezed text**, if the rules do. -/
theorem echoes_after (hnotes : E.KeepsNotes) (hE : E.Echoes) {p : Parser α} (hp : p.Blind)
    {s t : State} (h : s.Echoes t) (hs : (E.after p s).stalled = false)
    (ht : (E.after p t).stalled = false) :
    E.val p t = E.val p s ∧ (E.after p s).Echoes (E.after p t) := by
  induction p generalizing s t with
  | done value => exact ⟨rfl, h⟩
  | andThen first next ihFirst ihNext =>
    have hs' : (E.after first s).stalled = false := hnotes.unstalled (p := next (E.val first s)) hs
    have ht' : (E.after first t).stalled = false := hnotes.unstalled (p := next (E.val first t)) ht
    obtain ⟨hnext, hblind, hstate⟩ : next (E.val first t) = next (E.val first s) ∧
        (next (E.val first s)).Blind ∧ (E.after first s).Echoes (E.after first t) := by
      cases first with
      | look mode =>
        have hglimpse := (Place.echoes_next h.rest mode).1.glimpse
        refine ⟨?_, (hp _).2, h.inMode mode⟩
        rw [val_look, val_look, ← (hp _).1, hglimpse, (hp _).1]
      | ahead n =>
        have hglimpse := (Place.echoes_tokenAhead h.rest n).glimpse
        refine ⟨?_, (hp _).2, h.inMode .operator⟩
        rw [val_ahead, val_ahead, ← (hp _).1, hglimpse, (hp _).1]
      | _ =>
        obtain ⟨hvalue, hstate⟩ := ihFirst hp.1 h hs' ht'
        exact ⟨congrArg next hvalue, hp.2 _, hstate⟩
    have ht : (E.after (next (E.val first t)) (E.after first t)).stalled = false := ht
    change E.val (next (E.val first t)) (E.after first t) = _ ∧
      State.Echoes _ (E.after (next (E.val first t)) (E.after first t))
    rw [hnext] at ht ⊢
    exact ihNext _ hblind hstate hs ht
  | look mode => exact hp.elim
  | ahead n => exact hp.elim
  | take field =>
    have hkind := (Place.echoes_next h.rest s.mode).1.kind
    refine ⟨rfl, ?_⟩
    change (s.takeAs _ _ _).Echoes (t.takeAs _ (t.place.next t.mode).1.kind _)
    rw [h.mode, hkind]
    exact h.takeAs _ _ _
  | takeWord keyword field => exact ⟨rfl, h.takeAs _ _ _⟩
  | report error => exact ⟨rfl, h.report error⟩
  | node body ih =>
    have henter : (s.enter E.limits []).Echoes (t.enter E.limits []) := h.enter E.limits rfl
    obtain ⟨hvalue, hstate⟩ := ih hp henter hs ht
    exact ⟨congrArg Prod.snd hvalue, hstate.close h.children (congrArg Prod.fst hvalue)⟩
  | wrap field body ih =>
    have hlast : (t.children.take 1).map (Shape.withField field) =
        ((s.children.take 1).map (Shape.withField field)).map Shape.squeeze := by
      rw [h.children, ← List.map_take, List.map_map, List.map_map]
      congr 1
      exact funext fun c => (Shape.squeeze_withField field c).symm
    have houter : t.children.drop 1 = (s.children.drop 1).map Shape.squeeze := by
      rw [h.children, List.map_drop]
    obtain ⟨hvalue, hstate⟩ := ih hp (h.enter E.limits hlast) hs ht
    exact ⟨rfl, hstate.close houter hvalue⟩
  | label field => exact ⟨rfl, h.labelLast field⟩
  | loop body ih =>
    refine ⟨rfl, State.echoes_repeatWhile (stalled_after hnotes body) (fun h hs ht => ?_)
      _ _ h hs ht⟩
    exact ih hp h hs ht
  | call rule => exact ⟨rfl, hE rule h hs ht⟩
  | require mode kind =>
    exact ⟨rfl, h.rest, h.mode, h.children, h.causes, h.begun, h.taken, h.aborted⟩

/-- **The rules do the same on the squeezed text**, at every depth. -/
theorem echoes_atDepth (limits : Limits) (depth : Nat) : (atDepth limits depth).Echoes := by
  induction depth with
  | zero =>
    intro rule s t h hs ht
    have hrejected (s : State) : (atDepth limits 0).apply rule s =
        (givingUp limits).after (reject .nestingTooDeep) s := apply_zero limits rule s
    rw [hrejected] at hs ht ⊢
    rw [hrejected]
    refine (echoes_after (fun _ _ h => h) (fun rule s t h _ _ => ?_) (blind_reject _) h hs ht).2
    exact ⟨rfl, h.mode, congrArg (_ :: ·) h.children, h.causes, h.begun, h.taken, rfl⟩
  | succ depth ih =>
    intro rule s t h hs ht
    rw [atDepth_succ] at hs ht ⊢
    exact (echoes_after (stalled_atDepth limits depth) ih (blind_rule rule) h hs ht).2

end Setting

/-- **A whole parse of a squeezed text is the squeezed parse**, whatever the limits. -/
theorem State.echoes_run (limits : Limits) (text : Text) :
    (State.run limits text).Echoes (State.run limits text.squeeze) :=
  (Setting.echoes_after (E := Setting.atDepth limits limits.maxDepth)
    (Setting.stalled_atDepth limits _) (Setting.echoes_atDepth limits _) blind_sourceFile
    (.start text) (run_not_stalled limits text) (run_not_stalled limits text.squeeze)).2

end ActionScript
