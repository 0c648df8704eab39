import ActionScript.Proofs.Order.Basic

/-!
# Names, lists, types and recovery are orderly

The parsers that many rules share, one by one: each adds common children only, where it is used as
it should be.  What has been seen is taken, so it is no closing brace; where a token is rejected,
the brace has been left to others.

* `Setting.orders_reject`, `Setting.orders_semicolon`: recovery takes no closing brace.
* `Setting.orders_closed`: nodes that end with a brace.
* `Setting.orders_opened`: nodes that open with a keyword of their own.
-/

set_option autoImplicit false

namespace ActionScript

open ActionScript.Parser ActionScript.Grammar

namespace Setting

variable [Alphabet] {E : Setting} {q : Prop} {l : Bool} {s : State} {α β : Type}

/-! ## Instructions -/

@[simp] theorem orders_pure (a : α) : E.Orders q l (pure a) s := trivial
@[simp] theorem orders_bind {p : Parser β} {f : β → Parser α} : E.Orders q l (p >>= f) s ↔
    E.Orders q l p s ∧ E.Orders q l (f (E.val p s)) (E.after p s) := Iff.rfl
@[simp] theorem orders_look (mode : Mode) : E.Orders q l (.look mode) s := trivial
@[simp] theorem orders_ahead (n : Nat) : E.Orders q l (.ahead n) s := trivial
@[simp] theorem orders_take {field : Option Field} :
    E.Orders q l (.take field) s ↔ (l = true → s.Sees (·.kind ≠ .rCurly)) := Iff.rfl
/-- Anything may be taken where it is not looked at. -/
theorem orders_take_lax (field : Option Field) : E.Orders q false (.take field) s :=
  fun hl => (by cases hl)
@[simp] theorem orders_takeWord {keyword : Kind} {field : Option Field} :
    E.Orders q l (.takeWord keyword field) s ↔ (l = true → keyword ≠ .rCurly) := Iff.rfl
@[simp] theorem orders_report (error : SyntaxError) : E.Orders q l (.report error) s := trivial
@[simp] theorem orders_label (field : Field) : E.Orders q l (.label field) s := trivial
@[simp] theorem orders_call {rule : Rule} : E.Orders q l (.call rule) s ↔ rule.Clear s := Iff.rfl
@[simp] theorem orders_require (mode : Mode) (kind : Kind) : E.Orders q l (.require mode kind) s :=
  trivial
/-- A requirement changes nothing that can be seen. -/
theorem sees_require {mode : Mode} {kind : Kind} {P : Token → Prop} (h : s.Sees P) :
    (E.after (.require mode kind) s).Sees P := h

@[simp] theorem orders_loop {body : Parser Bool} :
    E.Orders q l (.loop body) s ↔ ∀ t, E.Orders q l body t := Iff.rfl

@[simp] theorem orders_ite {c : Prop} [Decidable c] {p r : Parser α} :
    E.Orders q l (if c then p else r) s ↔ (c → E.Orders q l p s) ∧ (¬c → E.Orders q l r s) := by
  split <;> simp [*]

@[simp] theorem orders_when {c : Bool} {p : Parser Unit} :
    E.Orders q l (when c p) s ↔ (c = true → E.Orders q l p s) := by
  cases c <;> simp [when]

/-- Of a node of a common kind only its body is asked about. -/
theorem orders_node {body : Parser (Kind × α)}
    (h : (E.val body (s.enter E.limits [])).1.isCommon = true) :
    E.Orders q l (.node body) s ↔ E.Orders q true body (s.enter E.limits []) :=
  ⟨fun hbody => hbody.1 h, fun hbody => ⟨fun _ => hbody, fun hother => absurd h (by simp [hother])⟩⟩

@[simp] theorem orders_nodeOf {kind : Kind} {body : Parser Unit} (h : kind.isCommon = true) :
    E.Orders q l (nodeOf kind body) s ↔ E.Orders q true body (s.enter E.limits []) := by
  rw [nodeOf, orders_node (by simpa using h), orders_bind]
  simp

/-- Of every other node it is said by itself what it is made of. -/
theorem orders_nodeOf_uncommon {kind : Kind} {body : Parser Unit} (strict : Bool)
    (hkind : kind.isCommon = false) (hbody : E.Orders q strict body (s.enter E.limits []))
    (h : (E.after body (s.enter E.limits [])).Calm q →
      (∀ c ∈ (E.after body (s.enter E.limits [])).children.reverse, strict = true → c.Common q) →
      Shape.Orderly q kind (E.after body (s.enter E.limits [])).children.reverse ∧
        (l = true →
          (Shape.node kind none (E.after body (s.enter E.limits [])).children.reverse).Common q)) :
    E.Orders q l (nodeOf kind body) s :=
  ⟨fun hother => absurd hkind (by simpa using hother),
    fun _ => ⟨strict, ⟨hbody, trivial⟩, fun hcalm hkids =>
    h hcalm fun c hc => (hkids c (List.mem_reverse.1 hc)).2⟩⟩

theorem orders_wrap {field : Field} {body : Parser Kind}
    (h : ∀ t, (E.val body t).isCommon = true)
    (hbody : ∀ children, E.Orders q true body (s.enter E.limits children)) :
    E.Orders q true (.wrap field body) s :=
  ⟨rfl, h _, hbody _⟩

theorem orders_of_onlyLooks {p : Parser α} (h : p.OnlyLooks) : E.Orders q l p s := by
  induction p generalizing s with
  | andThen first next ihFirst ihNext => exact ⟨ihFirst h.1, ihNext _ (h.2 _)⟩
  | done value => trivial
  | ahead distance => trivial
  | _ => exact h.elim

/-! ## The common pieces -/

@[simp] theorem orders_peek : E.Orders q l peek s := ⟨trivial, trivial⟩
@[simp] theorem orders_sees (kind : Kind) : E.Orders q l (sees kind) s := ⟨orders_peek, trivial⟩
@[simp] theorem orders_seesIn (mode : Mode) (kind : Kind) : E.Orders q l (seesIn mode kind) s :=
  ⟨trivial, trivial⟩
@[simp] theorem orders_seesWord (word : String) : E.Orders q l (seesWord word) s :=
  ⟨trivial, trivial⟩
@[simp] theorem orders_callIn {field : Field} {rule : Rule} :
    E.Orders q l (callIn field rule) s ↔ rule.Clear s := by
  simp [callIn]

theorem orders_leaf {kind : Kind} (hkind : kind.isCommon = true) (h : s.Sees (·.kind ≠ .rCurly)) :
    E.Orders q l (leaf kind) s := by
  rw [leaf, orders_nodeOf hkind]
  exact fun _ => h.enter _ _

theorem orders_wordLeaf {keyword kind : Kind} (hkind : kind.isCommon = true)
    (hkey : keyword ≠ .rCurly) : E.Orders q l (wordLeaf keyword kind) s := by
  rw [wordLeaf, orders_nodeOf hkind]
  exact fun _ => hkey

@[simp] theorem orders_eat {kind : Kind} (h : kind ≠ .rCurly) : E.Orders q l (eat kind) s := by
  simp only [eat, orders_bind, orders_sees, val_sees, after_sees, orders_ite, orders_take,
    orders_pure, and_true, true_and, implies_true, beq_iff_eq]
  rintro rfl - -
  exact h

@[simp] theorem orders_eatWord {keyword : Kind} (h : keyword ≠ .rCurly) :
    E.Orders q l (eatWord keyword) s := by
  simp only [eatWord, orders_bind, orders_look, orders_ite, orders_takeWord, orders_pure, and_true,
    true_and, implies_true]
  exact fun _ _ => h

/-! ## Errors -/

omit [Alphabet] in
/-- An error node around a token, if there is one. -/
theorem orderly_error {kids : List Shape}
    (h : ∀ c ∈ kids, c.isNode .error = false ∧ c.isNode .propertyAttribute = false) :
    Shape.Orderly q .error kids where
  brace hkind := absurd rfl hkind
  error _ c hc := by
    cases c with
    | token kind field leading text trailing => exact .inl trivial
    | node kind field kids =>
      refine .inl fun hkind => ?_
      have hkind' := (h _ hc).1
      simp [Shape.isNode, hkind] at hkind'
  qualifier _ c hc := (h c hc).2
  declares _ hkind := by cases hkind
  opening _ hkind := by cases hkind

omit [Alphabet] in
theorem common_error {kids : List Shape}
    (h : q → (∀ t ∈ Shape.tokensAll kids, t.kind ≠ .rCurly) ∨
      ∀ c ∈ kids, c.isNode .metadata = true) :
    (Shape.node .error none kids).Common q :=
  ⟨rfl, rfl, fun hq _ => h hq⟩

@[simp] theorem orders_missing (error : SyntaxError) : E.Orders q l (missing error) s := by
  refine ⟨trivial, orders_nodeOf_uncommon false (by decide) (orders_pure ()) fun _ _ => ?_⟩
  exact ⟨orderly_error (by simp), fun _ => common_error fun _ => .inl (by simp)⟩

/-- The token of an error node is no closing brace, if that is asked. -/
theorem orders_leaf_error (h : l = true → q → s.Sees (·.kind ≠ .rCurly)) :
    E.Orders q l (leaf .error) s := by
  refine orders_nodeOf_uncommon false (by decide) (orders_take_lax none) fun hcalm _ => ?_
  rw [after_take] at hcalm ⊢
  rw [State.takeAs_children, State.enter_children]
  refine ⟨orderly_error (by simp [Shape.isNode]), fun hl => common_error fun hq => .inl ?_⟩
  have ha := (State.Leads.takeAs (s.enter E.limits []) E.limits _ none).aborted hcalm.aborted
  simpa [Shape.kind] using (h hl hq).enter E.limits [] ha

/-- A closing brace is not rejected, if that is asked. -/
theorem orders_reject {error : SyntaxError}
    (h : l = true → q → s.aborted = none → s.place.ahead ≠ .rCurly) :
    E.Orders q l (reject error) s := by
  simp only [reject, orders_bind, orders_sees, orders_ite, orders_missing,
    orders_report, after_sees, after_report, true_and, implies_true]
  intro _
  refine orders_leaf_error fun hl hq ha => ?_
  simpa using h hl hq (by simpa using ha)

theorem orders_rejectUnless {stops : KindSet} {error : SyntaxError}
    (h : l = true → stops.contains .rCurly = true) : E.Orders q l (rejectUnless stops error) s := by
  simp only [rejectUnless, orders_bind, orders_peek, orders_ite, orders_missing,
    val_peek, after_peek, Bool.or_eq_true, true_and, implies_true, not_or]
  rintro ⟨hstops, -⟩
  refine orders_reject fun hl _ _ hcurly => hstops ?_
  rw [State.inMode_place] at hcurly
  rw [hcurly]
  exact h hl

@[simp] theorem orders_expectIn (mode : Mode) {kind : Kind} (h : l = true → kind ≠ .rCurly) :
    E.Orders q l (expectIn mode kind) s := by
  simp only [expectIn, orders_bind, orders_seesIn, val_seesIn, after_seesIn, orders_ite,
    orders_take, orders_pure, orders_missing, and_true, true_and, implies_true, beq_iff_eq]
  rintro rfl hl -
  exact h hl

@[simp] theorem orders_expect {kind : Kind} (h : l = true → kind ≠ .rCurly) :
    E.Orders q l (expect kind) s := by
  simpa [expect] using orders_expectIn _ h

@[simp] theorem orders_expectWord {keyword : Kind} (h : keyword ≠ .rCurly) :
    E.Orders q l (expectWord keyword) s := by
  simp [expectWord, h]

/-! ## Names and types -/

@[simp] theorem orders_name (field : Field) (stops : List Kind) :
    E.Orders q l (name field stops) s := by
  simp only [name, orders_bind, orders_sees, val_sees, after_sees, orders_ite,
    orders_label, true_and, and_true, beq_iff_eq]
  refine ⟨fun h => orders_leaf (by decide) ?_, fun _ => orders_rejectUnless fun _ => ?_⟩
  · exact State.sees_ne_of_kind h (by decide)
  · rw [KindSet.contains_union, Bool.or_eq_true]
    exact .inr (by decide)

/-- A token that has been seen behind the next one is taken behind it. -/
theorem orders_take_behind {f g : Option Field}
    (hkind : (State.tokenAhead 1 s.place).kind ≠ .rCurly)
    (hmore : (State.tokenAhead 1 s.place).kind ≠ .eof) :
    E.Orders q l (.take g) (E.after (.take f) (s.inMode .operator)) := by
  have hbehind : (s.inMode .operator).SeesBehind (·.kind ≠ .rCurly) :=
    seesBehind_of_tokenAhead hkind hmore
  exact fun _ => (State.takes_takeAs _ _ _ _).sees hbehind

@[simp] theorem orders_nameTail (wildcard : Bool) : E.Orders q l (nameTail wildcard) s := by
  intro t
  simp only [orders_bind, orders_sees, val_sees, after_sees, orders_ite, orders_ahead, val_ahead,
    after_ahead, orders_pure, State.inMode_place, State.inMode_inMode, glimpse_kind, beq_iff_eq,
    Bool.and_eq_true, true_and, implies_true, and_true]
  intro hdot
  have hfirst : E.Orders q l (.take none) (t.inMode .operator) := fun _ _ => by simp [hdot]
  refine ⟨fun hname => ⟨hfirst, ?_⟩, fun _ hstar => ⟨hfirst, ?_⟩⟩
  · exact orders_take_behind (by simp [hname]) (by simp [hname])
  · exact orders_take_behind (by simp [hstar.2]) (by simp [hstar.2])

/-- Where a dotted name is missing, a closing brace would be taken. -/
theorem orders_qualifiedName {field : Field} {wildcard : Bool}
    (h : l = true → q → s.aborted = none → s.place.ahead ≠ .rCurly) :
    E.Orders q l (qualifiedName field wildcard) s := by
  simp only [qualifiedName, orders_bind, orders_sees, val_sees, after_sees, orders_ite,
    orders_label, true_and, and_true, beq_iff_eq]
  refine ⟨fun hname => ?_, fun _ => ?_⟩
  · rw [orders_nodeOf (by decide)]
    exact ⟨fun _ => State.Sees.enter (State.sees_ne_of_kind hname (by decide)) _ _,
      orders_nameTail wildcard⟩
  · simp only [rejectUnless, orders_bind, orders_peek, orders_ite, orders_missing,
      val_peek, after_peek, true_and, implies_true]
    exact fun _ => orders_reject h

@[simp] theorem orders_typeIn (field : Field) : E.Orders q l (typeIn field) s :=
  orders_callIn.2 trivial

@[simp] theorem orders_typeAscription? (field : Field) :
    E.Orders q l (typeAscription? field) s := by
  simp only [typeAscription?, typeAscription, orders_bind, orders_sees, val_sees, after_sees,
    orders_when, orders_require, orders_label, true_and, and_true, beq_iff_eq]
  intro hcolon
  rw [orders_nodeOf (by decide)]
  have hsees : (s.inMode .operator).Sees (·.kind ≠ .rCurly) :=
    State.sees_ne_of_kind hcolon (by decide)
  exact ⟨fun _ => State.Sees.enter (sees_require hsees) _ _, orders_typeIn _⟩

theorem orders_typeArguments (h : s.Sees (·.kind ≠ .rCurly)) : E.Orders q l typeArguments s := by
  simp only [typeArguments, orders_bind, orders_require, orders_label, true_and, and_true]
  rw [orders_nodeOf (by decide)]
  simp only [orders_bind, orders_take, orders_loop, orders_typeIn, orders_seesIn, val_seesIn,
    after_seesIn, orders_ite, orders_pure, true_and, and_true, implies_true, beq_iff_eq]
  refine ⟨fun _ => State.Sees.enter (sees_require h) _ _, fun t hcomma _ => ?_, ?_⟩
  · exact State.sees_ne_of_kind hcomma (by decide)
  · exact orders_expectIn _ fun _ => by decide

theorem orders_genericType (h : s.Sees (·.kind ≠ .rCurly)) : E.Orders q true (wrap .base do
    typeArguments
    return .genericType) s := by
  refine orders_wrap (fun t => ?_) fun children => ⟨orders_typeArguments (h.enter _ _), trivial⟩
  rw [val_bind, val_pure]
  decide

theorem orders_typeName (h : s.Sees (·.kind ≠ .rCurly)) : E.Orders q l typeName s := by
  rw [typeName, orders_nodeOf (by decide)]
  refine ⟨fun _ => h.enter _ _, fun t => ?_⟩
  simp only [orders_bind, orders_seesIn, val_seesIn, after_seesIn, orders_ite,
    orders_ahead, val_ahead, after_ahead, orders_pure, State.inMode_place, State.inMode_inMode,
    glimpse_kind, beq_iff_eq, true_and, implies_true, and_true]
  intro hdot hname
  refine ⟨fun _ _ => ?_, orders_take_behind (by simp [hname]) (by simp [hname])⟩
  -- the dot has been seen among type arguments, but is taken as any other
  rcases t.place.next_typeArgs_agree with heq | ⟨hgt, -⟩
  · simp [State.token, ← heq, hdot]
  · rw [hdot] at hgt
    cases hgt

@[simp] theorem orders_typeRule : E.Orders q true typeRule s := by
  simp only [typeRule, orders_bind, orders_look, val_look, after_look, true_and, glimpse_kind]
  split
  · exact orders_leaf (by decide) (State.sees_ne_of_kind ‹_› (by decide))
  · rename_i hname
    have hsees : (s.inMode .typeArgs).Sees (·.kind ≠ .rCurly) :=
      State.sees_ne_of_kind hname (by decide)
    simp only [orders_ite, orders_bind, orders_seesIn, val_seesIn, after_seesIn,
      orders_when, true_and, beq_iff_eq]
    refine ⟨fun _ => orders_wordLeaf (by decide) (by decide),
      fun _ => ⟨orders_typeName hsees, fun hdotLt => ?_⟩⟩
    exact orders_genericType (State.sees_ne_of_kind hdotLt (by decide))
  · exact orders_missing _

@[simp] theorem orders_typeList : E.Orders q l typeList s :=
  fun _ => ⟨orders_typeIn _, orders_eat (by decide)⟩

/-! ## Lists -/

/-- A step in a list: a comma where an item should be, or an item and the comma behind it. -/
def listStep (b : Brackets) (item : Parser Bool) : Parser Bool := do
  let k ← peek
  if k == b.closing || k == .eof then return false
  else if k == .comma then
    reject b.stray
    return true
  else
    let found ← item
    if !found then return false
    else
      let separated ← eat .comma
      if separated then return true
      else
        let k ← peek
        if b.first.contains k then
          expect .comma
          return true
        else
          return false

omit [Alphabet] in
theorem delimited_eq (b : Brackets) (item : Parser Bool) : delimited b item = (do
    require .operator b.opening
    take none
    loop (listStep b item)
    expect b.closing) := rfl

theorem orders_listStep {b : Brackets} {item : Parser Bool} (hitem : ∀ t, E.Orders q l item t) :
    E.Orders q l (listStep b item) s := by
  simp only [listStep, orders_bind, orders_peek, val_peek, after_peek, orders_ite,
    orders_pure, hitem, true_and, and_true, implies_true, beq_iff_eq]
  intro _
  refine ⟨fun hcomma => orders_reject fun _ _ _ => by simp [hcomma], fun _ => ?_⟩
  exact fun _ => ⟨orders_eat (by decide), fun _ _ => orders_expect fun _ => by decide⟩

/-- A list between brackets that are no braces. -/
theorem orders_delimited {b : Brackets} {item : Parser Bool} (hopen : s.Sees (·.kind ≠ .rCurly))
    (hclosing : l = true → b.closing ≠ .rCurly) (hitem : ∀ t, E.Orders q l item t) :
    E.Orders q l (delimited b item) s :=
  ⟨trivial, fun _ => sees_require hopen, fun _ => orders_listStep hitem, orders_expect hclosing⟩

/-! ## Recovery -/

/-- Repetitions by an invariant, with an outcome: what holds when they go on, and what then holds at
their end. -/
theorem after_loop_outcome {body : Parser Bool} (I Q : State → Prop) (hs : I s)
    (hstall : ∀ (t : State) (stalled : Bool), I t → I { t with stalled }) (hend : ∀ t, I t → Q t)
    (hgo : ∀ t, I t → E.val body t = true → I (E.after body t))
    (hstop : ∀ t, I t → E.val body t = false → Q (E.after body t)) :
    Q (E.after (.loop body) s) := by
  rw [after_loop]
  generalize s.place.rest.length + 1 = limit
  induction limit generalizing s with
  | zero => exact hend _ (hstall s true hs)
  | succ limit ih =>
    rw [State.repeatWhile]
    split
    · rename_i t ht
      obtain ⟨hval, rfl⟩ := Prod.mk.inj ht
      exact ih (hstall _ _ (hgo s hs hval))
    · rename_i t ht
      obtain ⟨hval, rfl⟩ := Prod.mk.inj ht
      exact hstop s hs hval

/-- A step in which tokens are skipped. -/
def skipStep : Parser Bool := do
  if ← eat .semicolon then return false
  else
    take none
    let g ← look .operator
    return !(g.kind == .rCurly || g.kind == .eof || atStatementWord g)

omit [Alphabet] in
theorem skipStatement_eq : skipStatement = nodeOf .error (loop skipStep) := rfl

/-- A step takes the next token. -/
theorem after_skipStep :
    E.after skipStep s = (s.inMode .operator).takeAs E.limits s.place.ahead none ∨
    E.after skipStep s =
      ((s.inMode .operator).takeAs E.limits s.place.ahead none).inMode .operator := by
  rw [skipStep, after_bind, val_eat, after_ite]
  split
  · rename_i hsemi
    exact .inl (by simp [eat, beq_iff_eq.1 hsemi])
  · rename_i hsemi
    rw [after_bind, after_bind]
    exact .inr (by simp_all [eat])

/-- It goes on only if no closing brace is behind that. -/
theorem ahead_after_skipStep (h : E.val skipStep s = true) :
    (E.after skipStep s).place.ahead ≠ .rCurly := by
  rw [skipStep, val_bind, val_eat, val_ite] at h
  rw [skipStep, after_bind, val_eat, after_ite]
  split at h
  · cases h
  · rename_i hsemi
    rw [if_neg hsemi]
    simp only [val_bind, val_look, val_pure, glimpse_kind, Place.next_operator_kind,
      Bool.not_eq_true', Bool.or_eq_false_iff, beq_eq_false_iff_ne] at h
    exact h.1.1

/-- What is skipped up to the next statement holds no closing brace. -/
theorem isSkipped_of_skipStep (h : s.aborted = none → s.place.ahead ≠ .rCurly)
    (hs : s.children = []) (ha : (E.after (.loop skipStep) s).aborted = none) :
    ∀ c ∈ (E.after (.loop skipStep) s).children, c.IsSkipped := by
  have hstep (t : State)
      (ht : t.aborted = none → (∀ c ∈ t.children, c.IsSkipped) ∧ t.place.ahead ≠ .rCurly)
      (ha : (E.after skipStep t).aborted = none) :
      ∀ c ∈ (E.after skipStep t).children, c.IsSkipped := by
    obtain ⟨hkids, hahead⟩ := ht ((E.leads_after _ _).aborted ha)
    have hchildren : (E.after skipStep t).children =
        ((t.inMode .operator).takeAs E.limits t.place.ahead none).children := by
      rcases after_skipStep (E := E) (s := t) with heq | heq <;> rw [heq]
      rfl
    rw [hchildren, State.takeAs_children]
    exact List.forall_mem_cons.2 ⟨⟨_, _, _, _, _, rfl, hahead⟩, hkids⟩
  refine after_loop_outcome
    (fun t => t.aborted = none → (∀ c ∈ t.children, c.IsSkipped) ∧ t.place.ahead ≠ .rCurly)
    (fun t => t.aborted = none → ∀ c ∈ t.children, c.IsSkipped) (fun ha => ⟨by simp [hs], h ha⟩)
    (fun t stalled ht => ht) (fun t ht ha => (ht ha).1) ?_ ?_ ha
  · exact fun t ht hval ha => ⟨hstep t ht ha, ahead_after_skipStep hval⟩
  · exact fun t ht _ => hstep t ht

omit [Alphabet] in
theorem kind_of_isSkipped {kids : List Shape} (h : ∀ c ∈ kids, c.IsSkipped) :
    ∀ t ∈ Shape.tokensAll kids, t.kind ≠ .rCurly := by
  induction kids with
  | nil => simp
  | cons c kids ih =>
    obtain ⟨⟨kind, field, leading, text, trailing, rfl, hkind⟩, hkids⟩ := List.forall_mem_cons.1 h
    simpa [Shape.kind, hkind] using ih hkids

/-- Tokens that are taken into an error node are no closing braces. -/
theorem orders_skipStatement (h : s.aborted = none → s.place.ahead ≠ .rCurly) :
    E.Orders q l skipStatement s := by
  rw [skipStatement_eq]
  refine orders_nodeOf_uncommon false (by decide) (fun t => by simp [skipStep]) fun hcalm _ => ?_
  have hsees : (s.inMode .operator).Sees (·.kind ≠ .rCurly) := h
  have hkids :=
    isSkipped_of_skipStep (hsees.enter_inMode E.limits []) (State.enter_children s E.limits [])
    hcalm.aborted
  replace hkids := fun c hc => hkids c (List.mem_reverse.1 hc)
  refine ⟨orderly_error fun c hc => ?_, fun _ => common_error fun _ =>
    .inl (kind_of_isSkipped hkids)⟩
  obtain ⟨kind, field, leading, text, trailing, rfl, -⟩ := hkids c hc
  exact ⟨rfl, rfl⟩

@[simp] theorem orders_semicolon : E.Orders q l semicolon s := by
  simp only [semicolon, orders_bind, orders_when, orders_look, val_look, after_look, orders_report,
    after_report, true_and, Bool.not_eq_true', Bool.or_eq_false_iff, glimpse_kind,
    Place.next_operator_kind, beq_eq_false_iff_ne]
  refine ⟨orders_eat (by decide), fun _ hcurly _ => orders_skipStatement fun _ => ?_⟩
  simpa using hcurly.1.1

@[simp] theorem orders_statements : E.Orders q l statements s := by
  intro t
  simp [Rule.Clear]

@[simp] theorem orders_expression (field : Field) : E.Orders q l (expression field) s :=
  orders_callIn.2 trivial

@[simp] theorem orders_assignment (field : Field) : E.Orders q l (assignment field) s :=
  orders_callIn.2 trivial

/-! ## Nodes that open and close -/

/-- The mark of a missing token, or the token itself. -/
theorem exists_expectIn (mode : Mode) (kind : Kind) : ∃ last,
    (E.after (expectIn mode kind) s).children = last :: s.children ∧
    last.isNode .propertyAttribute = false ∧ last.Spares := by
  simp only [expectIn, after_bind, val_seesIn, after_seesIn, after_ite]
  split
  · exact ⟨_, State.takeAs_children _ _ _ _, rfl, trivial⟩
  · refine ⟨.node .error none [], ?_, rfl, fun _ => .inl (by simp)⟩
    simp [missing]

/-- **A node that ends with a closing brace** is orderly if that brace stands behind common
children. -/
theorem orderly_closed {kind : Kind} (hkind : kind ∈ Kind.braced) {t : State} (h : t.Over q true [])
    (mode : Mode) (hopening : ∀ k ∈ kind.opener?, Shape.OpenWith k t.children.reverse) :
    Shape.Orderly q kind (E.after (expectIn mode .rCurly) t).children.reverse := by
  obtain ⟨last, hlast, hqualifier, hspares⟩ := exists_expectIn (E := E) (s := t) mode .rCurly
  have hkids := h.forall_children
  rw [hlast, List.reverse_cons]
  refine ⟨fun _ before c behind heq htoken => ⟨hkind, ?_⟩, fun hq c hc => ?_,
    fun _ c hc => ?_, ?_, ?_⟩
  · -- no other child than the last one is a brace
    rcases List.eq_nil_or_concat behind with hnil | ⟨behind', d, rfl⟩
    · exact hnil
    · have hmem : c ∈ t.children.reverse := by
        rw [List.concat_eq_append, ← List.cons_append, ← List.append_assoc] at heq
        have hinit := List.append_inj_left' heq rfl
        simp [hinit]
      have hbrace := ((hkids c (List.mem_reverse.1 hmem)).2 rfl).brace
      rw [hbrace] at htoken
      cases htoken
  · rcases List.mem_append.1 hc with hc | hc
    · exact .inl (((hkids c (List.mem_reverse.1 hc)).2 rfl).error hq)
    · exact .inl (List.mem_singleton.1 hc ▸ hspares)
  · rcases List.mem_append.1 hc with hc | hc
    · exact ((hkids c (List.mem_reverse.1 hc)).2 rfl).qualifier
    · exact List.mem_singleton.1 hc ▸ hqualifier
  · intro keyword hkeyword
    have hnone : ∀ k ∈ Kind.braced, k.introducer? = none := by decide
    rw [hnone kind hkind] at hkeyword
    cases hkeyword
  · intro k hk
    obtain ⟨line, more, hstarts⟩ := hopening k hk
    exact ⟨line, more ++ Shape.starts [last],
      by rw [Shape.starts_append, hstarts, List.cons_append]⟩

/-- No parser changes the kinds of the tokens that have been taken, nor which of them start a
line. -/
theorem starts_prefix_after (p : Parser α) (s : State) :
    Shape.starts s.children.reverse <+: Shape.starts (E.after p s).children.reverse := by
  induction p generalizing s with
  | andThen first next ihFirst ihNext => exact (ihFirst s).trans (ihNext _ _)
  | take field => simp
  | takeWord keyword field => simp
  | report error => simp
  | node body => simp
  | wrap field body ih =>
    rw [after_wrap, State.close_children, List.reverse_cons, Shape.starts_append, Shape.starts_node]
    refine List.IsPrefix.trans ?_ ((List.prefix_append_right_inj _).2 (ih _))
    cases hs : s.children with
    | nil => simp
    | cons c cs => simp
  | label field =>
    cases hs : s.children with
    | nil => simp
    | cons c cs => simp [State.labelLast_children _ _ hs]
  | loop body ih =>
    exact after_loop_induct
      (fun t => Shape.starts s.children.reverse <+: Shape.starts t.children.reverse)
      (List.prefix_refl _) (fun _ _ h => h) fun t ht => ht.trans (ih t)
  | call rule =>
    obtain ⟨kind, children, hmakes⟩ := E.makes rule s
    simp [hmakes]
  | _ => exact List.prefix_refl _

/-- What has been opened by a token stays so. -/
theorem openWith_after {p : Parser α} {k : Kind} (h : Shape.OpenWith k s.children.reverse) :
    Shape.OpenWith k (E.after p s).children.reverse := by
  obtain ⟨line, before, hbefore⟩ := h
  obtain ⟨more, hmore⟩ := starts_prefix_after (E := E) p s
  exact ⟨line, before ++ more, by rw [← hmore, hbefore, List.cons_append]⟩

/-- A new node opens with the first token that is taken. -/
theorem openWith_takeAs (kind : Kind) (field : Option Field) :
    Shape.OpenWith kind ((s.enter E.limits []).takeAs E.limits kind field).children.reverse :=
  ⟨(s.enter E.limits []).token.leading.any Trivia.breaksLine, [],
    by rw [State.takeAs_children]; simp⟩

/-- It opens with the token that was seen, unless the parse is stopped. -/
theorem openWith_take {next : Unit → Parser α} {k : Kind} {field : Option Field}
    (h : s.Sees (·.kind = k))
    (ha : (E.after (.take field >>= next) (s.enter E.limits [])).aborted = none) :
    Shape.OpenWith k (E.after (.take field >>= next) (s.enter E.limits [])).children.reverse := by
  obtain rfl := h.enter E.limits [] ((E.leads_after _ _).aborted ha)
  exact openWith_after (p := next ()) (openWith_takeAs _ _)

/-- **A node that opens with a token of its own** is orderly if its children are common. -/
theorem orders_node_opened {body : Parser (Kind × α)} {k : Kind}
    (hopener : (E.val body (s.enter E.limits [])).1.opener? = some k)
    (hbody : E.Orders q true body (s.enter E.limits []))
    (hopening : (E.after body (s.enter E.limits [])).aborted = none →
      Shape.OpenWith k (E.after body (s.enter E.limits [])).children.reverse) :
    E.Orders q l (.node body) s := by
  have hkinds (k : Kind) (hk : k.opener?.isSome = true) :
      k.isCommon = false ∧ k ≠ .propertyAttribute ∧ k ≠ .error ∧ k.introducer? = none := by
    cases k <;> first | exact absurd hk (by decide) | decide
  obtain ⟨hcommon, hqualifier, herror, hintroducer⟩ := hkinds _ (by rw [hopener]; rfl)
  refine ⟨fun hother => absurd hcommon (by simp [hother]),
    fun _ => ⟨true, hbody, fun hcalm hkids => ⟨?_, fun _ => ?_⟩⟩⟩
  · refine .of_common (fun c hc => (hkids c (List.mem_reverse.1 hc)).2 rfl)
      hintroducer fun other hother => ?_
    obtain rfl : k = other := by simpa [hopener] using hother
    exact hopening hcalm.aborted
  · exact ⟨rfl, by simpa [Shape.isNode] using hqualifier, fun _ h => absurd h herror⟩

theorem orders_opened {kind k : Kind} {body : Parser Unit} (hopener : kind.opener? = some k)
    (hbody : E.Orders q true body (s.enter E.limits []))
    (hopening : (E.after body (s.enter E.limits [])).aborted = none →
      Shape.OpenWith k (E.after body (s.enter E.limits [])).children.reverse) :
    E.Orders q l (nodeOf kind body) s :=
  orders_node_opened (by simpa using hopener) ⟨hbody, orders_pure _⟩ hopening

/-- A statement that opens with its keyword. -/
theorem orders_opened_takeWord {kind keyword : Kind} {next : Unit → Parser Unit}
    (hopener : kind.opener? = some keyword) (hkey : keyword ≠ .rCurly)
    (hnext : ∀ t, E.Orders q true (next ()) t) :
    E.Orders q l (nodeOf kind (.takeWord keyword none >>= next)) s := by
  exact orders_opened hopener ⟨fun _ => hkey, hnext _⟩ fun _ =>
    openWith_after (p := next ()) (openWith_takeAs _ _)

/-- **A node that ends with a closing brace**: what stands in front of it is common. -/
theorem orders_closed (hE : E.Ordered q) {kind : Kind} {body : Parser Unit} (first : Parser α)
    (mode : Mode) (hkind : kind ∈ Kind.braced) (hbody : E.Orders q false body (s.enter E.limits []))
    (hfirst : E.Orders q true first (s.enter E.limits []))
    (hafter : E.after body (s.enter E.limits []) =
      E.after (expectIn mode .rCurly) (E.after first (s.enter E.limits [])))
    (hopening : (E.after first (s.enter E.limits [])).aborted = none → ∀ k ∈ kind.opener?,
      Shape.OpenWith k (E.after first (s.enter E.limits [])).children.reverse) :
    E.Orders q l (nodeOf kind body) s := by
  have hkinds : ∀ k ∈ Kind.braced, k.isCommon = false ∧ k ≠ .propertyAttribute ∧
      k ≠ .error := by decide
  obtain ⟨hcommon, hqualifier, herror⟩ := hkinds kind hkind
  refine orders_nodeOf_uncommon false hcommon hbody fun hcalm _ =>
    ⟨?_, fun _ => ⟨rfl, ?_, fun _ h => absurd h herror⟩⟩
  · rw [hafter] at hcalm ⊢
    have hinner := (E.leads_after (expectIn mode .rCurly) _).calm hcalm
    exact orderly_closed hkind (over_after hE hfirst (State.over_enter_nil _) hinner) mode
      (hopening hinner.aborted)
  · simpa [Shape.isNode] using hqualifier

/-- Statements in braces; only a block opens with its brace as far as that is of interest. -/
theorem orders_braced (hE : E.Ordered q) {kind : Kind} (hkind : kind ∈ Kind.braced)
    (hopener : ∀ k ∈ kind.opener?, k = .lCurly) : E.Orders q l (braced kind) s := by
  simp only [braced, orders_bind, orders_sees, val_sees, after_sees, orders_ite,
    orders_missing, true_and, implies_true, and_true, beq_iff_eq]
  intro hcurly
  have hsees : (s.inMode .operator).Sees (·.kind = .lCurly) := State.sees_inMode.2 fun _ => hcurly
  refine orders_closed hE (do take none; statements) .operator hkind (by simp) ?_
    ?_ fun ha k hk => ?_
  · simp only [orders_bind, orders_take, orders_statements, and_true]
    exact fun _ => (hsees.enter E.limits []).mono fun t ht => by simp [ht]
  · simp only [expect, after_bind, after_pure]
  · rw [hopener k hk]
    exact openWith_take hsees ha

@[simp] theorem orders_block (hE : E.Ordered q) : E.Orders q l block s :=
  orders_braced hE (by decide) (by decide)

end Setting

end ActionScript
