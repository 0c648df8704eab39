import ActionScript.Proofs.Avoiding
import ActionScript.Proofs.Recording.Entries
import ActionScript.Recording

/-!
# Recorded runs

A run with a record goes through the states that the run without one goes through, and its entries
tell the children of the open node.  For a node that goes around another, the entries of the inner
one stand in front of its own; as long as it has no child besides, the record has no position for
the last child.

* `State.Tracked`: what the record has to do with the state.
* `Setting.tracked_record`: **every safe run can be recorded**, by one induction over parsers.
* `Recorder.run_eq`: so can every parse, whatever the text and the limits.
-/

set_option autoImplicit false

namespace ActionScript

open ActionScript.Parser ActionScript.Grammar

namespace State

/-- The state without the children of the open node. -/
def bare (s : State) : State := { s with children := [] }

section
variable (s : State) (limits : Limits)

@[simp] theorem bare_children : s.bare.children = [] := rfl
@[simp] theorem bare_place : s.bare.place = s.place := rfl
@[simp] theorem bare_token [Alphabet] : s.bare.token = s.token := rfl
@[simp] theorem bare_broken : s.bare.broken = s.broken := rfl
@[simp] theorem bare_close (outer : List Shape) (kind : Kind) :
    (s.close outer kind).bare = s.bare := rfl
@[simp] theorem bare_enter (children : List Shape) :
    (s.enter limits children).bare = s.bare.beginNode limits := by
  simp only [bare, enter, beginNode, abort]
  grind

@[simp] theorem bare_takeAs [Alphabet] (kind : Kind) (field : Option Field) :
    (s.bare.takeAs limits kind field).bare = (s.takeAs limits kind field).bare := by
  simp only [bare, takeAs, abort]
  grind

@[simp] theorem bare_report [Alphabet] (error : SyntaxError) :
    s.bare.report error = (s.report error).bare := by
  simp only [bare, report, token]
  grind

/-- Inside of a new node it does not matter which slot the last child outside was put into. -/
theorem enter_labelLast (field : Field) (children : List Shape) :
    (s.labelLast field).enter limits children = s.enter limits children := by
  unfold labelLast
  split
  · rfl
  · simp only [enter, beginNode, abort]
    grind

@[simp] theorem bare_labelLast (field : Field) : (s.labelLast field).bare = s.bare := by
  unfold labelLast
  split <;> rfl

end

/-! ## Recorders and states -/

/-- The recorder is where the state is.  The children that the open node has got since it was
started are `own`, and the entries behind those in `before` tell them; the one that it goes around,
if any, is `held`. -/
structure Tracked (before : List Entry) (armed : List Nat) (held own : List Shape) (s : State)
    (r : Recorder) : Prop where
  children : s.children = own ++ held
  reader : r.reader = s.bare
  armed : r.armed = armed
  entries : ∃ entries last, r.entries = before ++ entries ∧
    r.last = last.map (before.length + ·) ∧ Entry.Tells own entries last

namespace Tracked

variable {before : List Entry} {armed : List Nat} {held own : List Shape} {s : State} {r : Recorder}

/-- A change of the state that leaves the children alone changes what is read. -/
theorem ofReader (h : s.Tracked before armed held own r) {t : State}
    (ht : t.children = s.children) : t.Tracked before armed held own { r with reader := t.bare } :=
  ⟨ht.trans h.children, rfl, h.armed, h.entries⟩

/-- Taking a token adds it to the record. -/
theorem takeAs [Alphabet] (h : s.Tracked before armed held own r) (limits : Limits) (kind : Kind)
    (field : Option Field) :
    (s.takeAs limits kind field).Tracked before armed held
      (.token kind field s.token.leading s.token.text s.token.trailing :: own)
      (r.takeAs limits kind field) := by
  obtain ⟨entries, last, hentries, -, htells⟩ := h.entries
  refine ⟨by simp [h.children], ?_, h.armed, ?_⟩
  · rw [← bare_takeAs, ← h.reader]
    rfl
  · refine ⟨_, none, ?_, rfl, htells.token s.token kind field⟩
    rw [Recorder.takeAs, h.reader, hentries, List.append_assoc]
    rfl

/-- Inside of a new node the record begins behind its start. -/
theorem begin (h : s.Tracked before armed held own r) (limits : Limits) :
    (s.enter limits []).Tracked (r.entries ++ [.start .placeholder])
      (r.entries.length :: armed) [] []
      (r.begin limits) := by
  refine ⟨rfl, ?_, ?_, [], none, (List.append_nil _).symm, rfl, .nil⟩
  · rw [bare_enter, ← h.reader]
    rfl
  · rw [Recorder.begin, h.armed]

/-- The node completed last is put into a slot. -/
theorem labelLast {kind : Kind} {slot : Option Field} {children : List Shape}
    (h : s.Tracked before armed held (.node kind slot children :: own) r) (field : Field) :
    ∃ t, r.labelLast field = .ok t ∧
      (s.labelLast field).Tracked before armed held
        (.node kind (some field) children :: own) t := by
  obtain ⟨_, _, hentries, hlast, htells⟩ := h.entries
  obtain ⟨front, back, rfl, rfl, hput⟩ := htells.exists_start
  have hamend := Entry.amend_append (before ++ front) back ⟨kind, none, slot⟩ ({ · with field })
  rw [List.append_assoc, List.length_append, List.append_assoc] at hamend
  refine
    ⟨{ r with entries := before ++ (front ++ .start ⟨kind, none, some field⟩ :: back) }, ?_, ?_⟩
  · rw [Recorder.labelLast, hlast, hentries]
    simp only [Option.map_some, hamend]
    rfl
  · refine ⟨s.labelLast_children field h.children, ?_, h.armed, _, _, rfl, hlast, hput (some field)⟩
    rw [bare_labelLast]
    exact h.reader

/-- A node is completed if, with all that is inside of it, its entries tell one more child. -/
theorem complete {entries : List Entry} {outer held' inner : List Shape} {kind : Kind} {t : State}
    {r' : Recorder} (houter : outer = own ++ held)
    (h : t.Tracked (before ++ entries ++ [.start .placeholder])
      ((before ++ entries).length :: armed)
      held' inner r')
    (htells : ∀ inside last, Entry.Tells inner inside last →
      Entry.Tells (.node kind none (held'.reverse ++ inner.reverse) :: own)
        (entries ++ .start ⟨kind, none, none⟩ :: (inside ++ [.finish])) (some entries.length)) :
    ∃ r'', r'.complete (before ++ entries).length kind = .ok r'' ∧
      (t.close outer kind).Tracked before armed held
        (.node kind none (held'.reverse ++ inner.reverse) :: own) r'' := by
  obtain ⟨inside, last, hinside, -, hinner⟩ := h.entries
  have hamend := Entry.amend_append (before ++ entries) inside .placeholder ({ · with kind })
  refine
    ⟨⟨r'.reader, before ++ (entries ++ .start ⟨kind, none, none⟩ :: (inside ++ [.finish])), armed,
      some (before ++ entries).length⟩, ?_, ?_, h.reader, rfl, _, _, rfl, ?_, htells _ _ hinner⟩
  · rw [Recorder.complete, hinside, h.armed, List.erase_cons_head, List.append_assoc,
      List.singleton_append, hamend]
    simp [Except.map, Start.placeholder]
  · rw [close_children, h.children, List.reverse_append, houter]
    rfl
  · rw [List.length_append]
    rfl

/-- A node around the one completed last has that in front of its start. -/
theorem precede {kind : Kind} {slot : Option Field} {children : List Shape}
    (h : s.Tracked before armed held (.node kind slot children :: own) r) (limits : Limits) :
    ∃ entries t, r.precede limits = .ok t ∧ r.entries.length = (before ++ entries).length ∧
      (s.enter limits [.node kind slot children]).Tracked
        (before ++ entries ++ [.start .placeholder]) ((before ++ entries).length :: armed)
        [.node kind slot children] [] t ∧
      ∀ {inner : List Shape} {inside : List Entry} {last : Option Nat} {kind' : Kind},
        kind' ≠ .tombstone → Entry.Tells inner inside last →
        Entry.Tells (.node kind' none (.node kind slot children :: inner.reverse) :: own)
          (entries ++ .start ⟨kind', none, none⟩ :: (inside ++ [.finish]))
            (some entries.length) := by
  obtain ⟨_, _, hentries, hlast, htells⟩ := h.entries
  obtain ⟨front, back, rfl, rfl, hput⟩ := htells.exists_start
  have hlength : (before ++ (front ++ .start ⟨kind, none, slot⟩ :: back)).length =
      (before ++ (front ++ .start ⟨kind, some (back.length + 1), slot⟩ :: back)).length := by
    simp
  have hdistance :
      (before ++ (front ++ .start ⟨kind, some (back.length + 1), slot⟩ :: back)).length -
      (before.length + front.length) = back.length + 1 := by
    simp
    omega
  have hamend := Entry.amend_append (before ++ front) (back ++ [.start .placeholder])
    ⟨kind, none, slot⟩ ({ · with forward := some (back.length + 1) })
  simp only [List.append_assoc, List.length_append] at hamend
  refine ⟨front ++ .start ⟨kind, some (back.length + 1), slot⟩ :: back,
    ⟨r.reader.beginNode limits,
      before ++ (front ++ .start ⟨kind, some (back.length + 1), slot⟩ :: back) ++
        [.start .placeholder],
      (before ++ (front ++ .start ⟨kind, some (back.length + 1), slot⟩ :: back)).length :: armed,
      none⟩,
    ?_, ?_, ⟨rfl, ?_, rfl, [], none, (List.append_nil _).symm, rfl, .nil⟩, ?_⟩
  · simp only [Recorder.precede, hlast, Option.map_some, Recorder.begin, hentries, h.armed, hlength,
      hdistance]
    simp only [List.append_assoc, List.cons_append, hamend]
    rfl
  · rw [hentries, hlength]
  · rw [bare_enter, ← h.reader]
  · exact fun hkind hinner => (hput slot).around hinner hkind none

/-- Where the last child is a node, it is one of the open node's own. -/
theorem exists_node (h : s.Tracked before armed held own r) (hends : s.EndsInNode)
    (hown : held = [] ∨ own ≠ []) :
    ∃ kind slot children outer, own = .node kind slot children :: outer := by
  obtain ⟨kind, slot, children, outer, hchildren⟩ := hends
  rw [h.children] at hchildren
  cases own with
  | nil =>
    rw [hown.resolve_right (absurd rfl)] at hchildren
    cases hchildren
  | cons c own =>
    obtain ⟨rfl, -⟩ := List.cons.inj hchildren
    exact ⟨kind, slot, children, own, rfl⟩

end Tracked

end State

namespace Parser

variable {limits : Limits} {apply : Rule → Recorder → Except Fault Recorder} {r inner t : Recorder}

variable [Alphabet]

theorem record_bind {α β : Type} {first : Parser β} {next : β → Parser α} {value : β}
    (h : first.record limits apply r = .ok (value, t)) :
    (first >>= next).record limits apply r = (next value).record limits apply t := by
  change (first.record limits apply r >>= fun made => (next made.1).record limits apply made.2) = _
  rw [h]
  rfl

/-- A node is recorded if its inside is, and the node is completed behind that. -/
theorem record_node {α : Type} {body : Parser (Kind × α)} {made : Kind × α}
    (hbody : body.record limits apply (r.begin limits) = .ok (made, inner))
    (hcomplete : inner.complete r.entries.length made.1 = .ok t) :
    (node body).record limits apply r = .ok (made.2, t) := by
  simp only [record, hbody, hcomplete, bind, Except.bind, pure, Except.pure]

/-- So is a node around another, which is put into a slot before. -/
theorem record_wrap {field : Field} {body : Parser Kind} {kind : Kind} {labelled outer : Recorder}
    (hlabel : r.labelLast field = .ok labelled) (hprecede : labelled.precede limits = .ok outer)
    (hbody : body.record limits apply outer = .ok (kind, inner))
    (hcomplete : inner.complete labelled.entries.length kind = .ok t) :
    (wrap field body).record limits apply r = .ok ((), t) := by
  simp only [record, hlabel, hprecede, hbody, hcomplete, bind, Except.bind, pure, Except.pure]

end Parser

namespace Setting

variable [Alphabet] {E : Setting} {record : Rule → Recorder → Except Fault Recorder}
  {before : List Entry} {armed : List Nat} {held own : List Shape} {s : State} {r : Recorder}
  {α : Type}

/-- The rules can be recorded. -/
def RecordsRules (E : Setting) (record : Rule → Recorder → Except Fault Recorder) : Prop :=
  ∀ {rule : Rule} {before : List Entry} {armed : List Nat} {held own : List Shape} {s : State}
    {r : Recorder}, rule.Ready s → held = [] ∨ own ≠ [] → s.Tracked before armed held own r →
    ∃ own' r', record rule r = .ok r' ∧ (E.apply rule s).Tracked before armed held own' r'

omit [Alphabet] in
/-- A repetition can be recorded, if its step can. -/
theorem tracked_repeatWhile {safe : State → Prop} {step : State → Bool × State}
    {recorded : Recorder → Except Fault (Bool × Recorder)}
    (hstep : ∀ {own : List Shape} {s : State} {r : Recorder}, safe s → held = [] ∨ own ≠ [] →
      s.Tracked before armed held own r → ∃ own' r', recorded r = .ok ((step s).1, r') ∧
        (step s).2.Tracked before armed held own' r' ∧ (own ≠ [] → own' ≠ []))
    {limit : Nat} (hsafe : Proceeds safe step limit s) (hown : held = [] ∨ own ≠ [])
    (hs : s.Tracked before armed held own r) :
    ∃ own' r', Recorder.repeatWhile recorded limit r = .ok r' ∧
      (State.repeatWhile step limit s).Tracked before armed held own' r' ∧
      (own ≠ [] → own' ≠ []) := by
  induction limit generalizing s own r with
  | zero => exact hsafe.elim
  | succ limit ih =>
    obtain ⟨own', r', hrecorded, htracked, hkept⟩ := hstep hsafe.1 hown hs
    have hgo := hsafe.2
    rw [Recorder.repeatWhile, hrecorded, State.repeatWhile]
    cases hdone : step s with
    | mk goes t =>
      rw [hdone] at htracked hgo
      cases goes with
      | false => exact ⟨own', r', rfl, htracked, hkept⟩
      | true =>
        obtain ⟨hmoves, hrest⟩ := hgo rfl
        dsimp only
        rw [noteStall_of_moves hmoves]
        obtain ⟨own'', r'', hrest', htracked', hkept'⟩ := ih hrest (hown.imp_right hkept) htracked
        exact ⟨own'', r'', hrest', htracked', fun h => hkept' (hkept h)⟩

/-- **Every safe run can be recorded**, if the rules can: no marker is misused and no node is left
without an end, and the record tells the children of the open node. -/
theorem tracked_record (hE : E.RecordsRules record) {p : Parser α} (hsafe : E.Safe p s)
    (hp : p.Avoids Kind.unmade True True)
    (hs : s.Tracked before armed held own r)
    (hown : held = [] ∨ own ≠ [] ∨ p.Begins ∨ p.IsIdle) :
    ∃ own' r', p.record E.limits record r = .ok (E.val p s, r') ∧
      (E.after p s).Tracked before armed held own' r' ∧
      (own ≠ [] ∨ p.Begins → own' ≠ []) ∧ (p.IsIdle → own' = own) := by
  induction p generalizing before armed held own s r with
  | done value => exact ⟨own, r, rfl, hs, by simp [Parser.Begins], fun _ => rfl⟩
  | andThen first next ihFirst ihNext =>
    have hfirst : held = [] ∨ own ≠ [] ∨ first.Begins ∨ first.IsIdle := by
      rcases hown with h | h | (h | ⟨h, -⟩) | h
      · exact .inl h
      · exact .inr (.inl h)
      · exact .inr (.inr (.inl h))
      · exact .inr (.inr (.inr h))
      · exact h.elim
    obtain ⟨own₁, r₁, hrecord₁, hs₁, hadds₁, -⟩ := ihFirst hsafe.1 hp.1 hs hfirst
    have hnext : held = [] ∨ own₁ ≠ [] ∨ (next (E.val first s)).Begins ∨
        (next (E.val first s)).IsIdle := by
      rcases hown with h | h | (h | ⟨-, h⟩) | h
      · exact .inl h
      · exact .inr (.inl (hadds₁ (.inl h)))
      · exact .inr (.inl (hadds₁ (.inr h)))
      · exact .inr (.inr (.inl (h _)))
      · exact h.elim
    obtain ⟨own₂, r₂, hrecord₂, hs₂, hadds₂, -⟩ := ihNext _ hsafe.2 (hp.2 _) hs₁ hnext
    refine ⟨own₂, r₂, ?_, hs₂, ?_, fun h => h.elim⟩
    · exact (Parser.record_bind hrecord₁).trans hrecord₂
    · rintro (h | h | ⟨-, h⟩)
      · exact hadds₂ (.inl (hadds₁ (.inl h)))
      · exact hadds₂ (.inl (hadds₁ (.inr h)))
      · exact hadds₂ (.inr (h _))
  | look mode =>
    refine ⟨own, _, ?_, hs.ofReader (t := s.inMode mode) rfl, fun h => h.resolve_right id,
      fun _ => rfl⟩
    rw [Parser.record, hs.reader]
    rfl
  | ahead distance =>
    refine ⟨own, _, ?_, hs.ofReader (t := s.inMode .operator) rfl, fun h => h.resolve_right id,
      fun _ => rfl⟩
    rw [Parser.record, hs.reader]
    rfl
  | take field =>
    refine ⟨_, _, ?_, hs.takeAs E.limits s.token.kind field, fun _ => List.cons_ne_nil _ _,
      fun h => h.elim⟩
    rw [Parser.record, hs.reader]
    rfl
  | takeWord keyword field =>
    exact ⟨_, _, rfl, hs.takeAs _ _ _, fun _ => List.cons_ne_nil _ _, fun h => h.elim⟩
  | report error =>
    refine ⟨own, _, ?_, hs.ofReader (s.report_children error), fun h => h.resolve_right id,
      fun _ => rfl⟩
    rw [Parser.record, hs.reader, State.bare_report]
    rfl
  | node body ih =>
    obtain ⟨entries, last, hentries, -, htells⟩ := hs.entries
    have hbegin := hs.begin E.limits
    rw [hentries] at hbegin
    obtain ⟨inner, r', hrecord, hinner, -⟩ := ih hsafe hp.1 hbegin (.inl rfl)
    have hkind := Kind.ne_tombstone (hp.2.val E (s.enter E.limits []))
    obtain ⟨r'', hcomplete, hclosed⟩ := hinner.complete hs.children fun inside last hinside =>
      htells.node hinside hkind none
    rw [← hentries] at hcomplete
    exact ⟨_, r'', Parser.record_node hrecord hcomplete, hclosed, fun _ => List.cons_ne_nil _ _,
      fun h => h.elim⟩
  | wrap field body ih =>
    obtain ⟨hends, hbegins, hsafe⟩ := hsafe
    have hown : held = [] ∨ own ≠ [] := by simpa [Parser.Begins, Parser.IsIdle] using hown
    obtain ⟨kind, slot, children, own, rfl⟩ := hs.exists_node hends hown
    obtain ⟨r₁, hlabel, hs₁⟩ := hs.labelLast field
    obtain ⟨entries, r₂, hprecede, hlength, hs₂, htells⟩ := hs₁.precede E.limits
    -- inside, the node put into the slot is the only child for now, and it is held
    have hinside : (s.labelLast field).enter E.limits [.node kind (some field) children] =
        s.enter E.limits ((s.children.take 1).map (Shape.withField field)) := by
      rw [State.enter_labelLast, hs.children]
      rfl
    rw [hinside] at hs₂
    obtain ⟨inner, r₃, hrecord, hinner, -⟩ := ih hsafe hp.1 hs₂ (.inr (.inr (.inl hbegins)))
    have hkind := Kind.ne_tombstone
      (hp.2.val E (s.enter E.limits ((s.children.take 1).map (Shape.withField field))))
    have houter : s.children.drop 1 = own ++ held := by
      rw [hs.children]
      rfl
    obtain ⟨r₄, hcomplete, hclosed⟩ := hinner.complete houter fun _ _ => htells hkind
    rw [← hlength] at hcomplete
    exact ⟨_, r₄, Parser.record_wrap hlabel hprecede hrecord hcomplete, hclosed,
      fun _ => List.cons_ne_nil _ _, fun h => h.elim⟩
  | label field =>
    have hown : held = [] ∨ own ≠ [] := by simpa [Parser.Begins, Parser.IsIdle] using hown
    obtain ⟨kind, slot, children, own, rfl⟩ := hs.exists_node hsafe hown
    obtain ⟨r', hlabel, hs'⟩ := hs.labelLast field
    refine ⟨_, r', ?_, hs', fun _ => List.cons_ne_nil _ _, fun h => h.elim⟩
    rw [Parser.record, hlabel]
    rfl
  | loop body ih =>
    have hown : held = [] ∨ own ≠ [] := by simpa [Parser.Begins, Parser.IsIdle] using hown
    have hstep {own : List Shape} {s : State} {r : Recorder} (hsafe : E.Safe body s)
        (hown : held = [] ∨ own ≠ []) (hs : s.Tracked before armed held own r) :
        ∃ own' r', body.record E.limits record r = .ok (E.val body s, r') ∧
          (E.after body s).Tracked before armed held own' r' ∧ (own ≠ [] → own' ≠ []) := by
      obtain ⟨own', r', hrecord, hs', hadds, -⟩ := ih hsafe hp hs (hown.imp_right .inl)
      exact ⟨own', r', hrecord, hs', fun h => hadds (.inl h)⟩
    obtain ⟨own', r', hrecord, hs', hkept⟩ := tracked_repeatWhile hstep hsafe hown hs
    refine ⟨own', r', ?_, hs', fun h => hkept (h.resolve_right id), fun h => h.elim⟩
    rw [Parser.record, hs.reader, State.bare_place, hrecord]
    rfl
  | call rule =>
    have hown : held = [] ∨ own ≠ [] := by simpa [Parser.Begins, Parser.IsIdle] using hown
    obtain ⟨own', r', hrecord, hs'⟩ := hE hsafe hown hs
    refine ⟨own', r', ?_, hs', fun h => ?_, fun h => h.elim⟩
    · rw [Parser.record, hrecord]
      rfl
    · rintro rfl
      obtain ⟨kind, children, hmakes⟩ := E.makes rule s
      rw [hs'.children, hs.children] at hmakes
      have hlength := congrArg List.length hmakes
      simp at hlength
      omega
  | require mode kind =>
    refine ⟨own, _, ?_, hs.ofReader (t := E.after (.require mode kind) s) rfl,
      fun h => h.resolve_right id, fun _ => rfl⟩
    rw [Parser.record, hs.reader]
    rfl

/-! ## The rules at every depth -/

/-- A record of giving up the parse. -/
def giveUp (r : Recorder) : Recorder where
  reader := { r.reader with place := r.reader.place.finish, aborted := some (.nodeLimit 0) }
  entries := r.entries ++ [.start ⟨.error, none, none⟩, .finish]
  armed := r.armed
  last := r.entries.length

theorem recordsRules_givingUp (limits : Limits) :
    (givingUp limits).RecordsRules fun _ r => .ok (giveUp r) := by
  intro rule before armed held own s r _ _ hs
  obtain ⟨entries, last, hentries, -, htells⟩ := hs.entries
  refine ⟨.node .error none [] :: own, _, rfl, ?_, ?_, hs.armed, _, _, ?_, ?_,
    htells.node .nil (by decide) none⟩
  · change _ :: s.children = _
    rw [hs.children]
    rfl
  · rw [giveUp, hs.reader]
    rfl
  · rw [giveUp, hentries, List.append_assoc]
    rfl
  · rw [giveUp, hentries, List.length_append]
    rfl

/-- Rejecting the next token applies no rule. -/
theorem record_reject (limits : Limits) (f g : Rule → Recorder → Except Fault Recorder)
    (error : SyntaxError) (r : Recorder) :
    (Parser.reject error).record limits f r = (Parser.reject error).record limits g r := by
  unfold Parser.reject
  change Parser.record limits f (if _ then _ else _) _ = Parser.record limits g
    (if _ then _ else _) _
  split <;> rfl

/-- **The rules can be recorded**, at every depth. -/
theorem recordsRules_atDepth (limits : Limits) (depth : Nat) :
    (atDepth limits depth).RecordsRules (Recorder.apply limits depth) := by
  induction depth with
  | zero =>
    intro rule before armed held own s r _ hown hs
    obtain ⟨own', r', hrecord, hs', -⟩ := tracked_record (recordsRules_givingUp limits)
      (safe_reject .nestingTooDeep) (Parser.avoids_reject _) hs (hown.imp_right .inl)
    refine ⟨own', r', ?_, ?_⟩
    · rw [Recorder.apply, record_reject limits _ fun _ r => .ok (giveUp r)]
      exact congrArg (Except.map Prod.snd) hrecord
    · change (State.apply limits 0 rule s).Tracked _ _ _ _ _
      rw [apply_zero]
      exact hs'
  | succ depth ih =>
    intro rule before armed held own s r hready hown hs
    obtain ⟨own', r', hrecord, hs', -⟩ := tracked_record ih (safe_rule hready)
      (Grammar.avoids_rule_unmade rule) hs (hown.imp_right .inl)
    exact ⟨own', r', congrArg (Except.map Prod.snd) hrecord, hs'⟩

end Setting

/-! ## A whole parse -/

/-- **Every parse can be recorded**, whatever the text and the limits.  No marker is misused and
none is left behind; the record is where the parse is, and its entries are told as the events of the
shapes. -/
theorem Recorder.run_eq [Alphabet] (limits : Limits) (text : Text) :
    ∃ r, Recorder.run limits text = .ok r ∧ r.reader = (State.run limits text).bare ∧ r.armed = [] ∧
      Entry.settle r.entries = .ok (Shape.eventsAll (State.run limits text).children.reverse) := by
  let E := Setting.atDepth limits limits.maxDepth
  let s := (State.start text).enter limits []
  let t := E.after (loop statementRound) s
  let kind := t.token.kind
  have hstart : (State.start text).Tracked [] [] [] [] ⟨.start text, [], [], none⟩ :=
    ⟨rfl, rfl, rfl, [], none, rfl, rfl, .nil⟩
  have havoids : (loop statementRound).Avoids Kind.unmade True True := by
    have hfile := avoids_sourceFile_unmade
    rw [sourceFile_eq, avoids_nodeOf] at hfile
    exact hfile.1.1
  obtain ⟨statements, r₁, hrecord, hs₁, -⟩ := Setting.tracked_record
    (Setting.recordsRules_atDepth limits limits.maxDepth)
    (Setting.runs_statements (E := E) (s := s)).1 havoids (hstart.begin limits) (.inl rfl)
  have htaken : (t.takeAs limits kind none).Tracked ([] ++ [] ++ [.start .placeholder]) [0] []
      (.token kind none t.token.leading t.token.text t.token.trailing :: statements)
      (r₁.takeAs limits kind none) := hs₁.takeAs limits kind none
  have hclosed : ∃ r, (r₁.takeAs limits kind none).complete 0 .sourceFile = .ok r ∧
      (State.run limits text).Tracked [] [] [] _ r :=
    htaken.complete rfl fun _ _ hinside => Entry.Tells.nil.node hinside (by decide) none
  obtain ⟨r, hcomplete, hs⟩ := hclosed
  refine ⟨r, ?_, hs.reader, hs.armed, ?_⟩
  · have htake : (take none).record limits (Recorder.apply limits limits.maxDepth) r₁ =
        .ok ((), r₁.takeAs limits kind none) := by
      rw [record, hs₁.reader]
      rfl
    have hinside : (loop statementRound >>= fun _ => take none).record limits
        (Recorder.apply limits limits.maxDepth)
          (Recorder.begin ⟨.start text, [], [], none⟩ limits) =
        .ok ((), r₁.takeAs limits kind none) := (record_bind hrecord).trans htake
    have hfile : sourceFile.record limits (Recorder.apply limits limits.maxDepth)
        ⟨.start text, [], [], none⟩ = .ok ((), r) := by
      rw [sourceFile_eq, nodeOf]
      exact record_node (record_bind hinside) hcomplete
    exact congrArg (Except.map Prod.snd) hfile
  · obtain ⟨entries, last, hentries, -, htells⟩ := hs.entries
    rw [hs.children, hentries, List.nil_append, List.append_nil]
    exact htells.settle_eq

end ActionScript
