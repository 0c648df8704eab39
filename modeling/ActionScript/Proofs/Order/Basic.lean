import ActionScript.Proofs.Semicolons.Restricted

/-!
# What may stand where

Most nodes hold nothing that is out of the ordinary.  Closing braces stand at the end of what they
close, an error node takes none of them, namespaces stand in front of the declarations that they
qualify, and most statements open with a token of their own.

* `Shape.Common`: a child that may stand anywhere.  `Shape.Orderly`: what is known of a node.
* `Setting.Orders`: a parser adds only common children to the open node, if that is asked, and the
  nodes that it makes by itself are orderly.
* `Setting.over_after`: **what such parsers make is in order**, if the rules do so.
-/

set_option autoImplicit false

namespace ActionScript

open ActionScript.Parser ActionScript.Grammar

/-! ## Kinds -/

namespace Kind

/-- The nodes that end with a closing brace. -/
def braced : List Kind :=
  [.block, .classBody, .interfaceBody, .switchBody, .objectLiteral, .xmlExpr]

/-- The token that a node opens with, where that tells which statement or annotation it is. -/
def opener? : Kind → Option Kind
  | .block => some .lCurly
  | .emptyStmt => some .semicolon
  | .ifStmt => some .ifKw
  | .switchStmt => some .switchKw
  | .forStmt | .forInStmt | .forEachInStmt => some .forKw
  | .whileStmt => some .whileKw
  | .doStmt => some .doKw
  | .withStmt => some .withKw
  | .tryStmt => some .tryKw
  | .breakStmt => some .breakKw
  | .continueStmt => some .continueKw
  | .returnStmt => some .returnKw
  | .throwStmt => some .throwKw
  | .importStmt => some .importKw
  | .includeDirective => some .includeKw
  | .useNamespaceDirective => some .useKw
  | .packageDecl => some .packageKw
  | .metadata => some .lBrack
  | _ => none

/-- The keyword that introduces a declaration. -/
def introducer? : Kind → Option Kind
  | .classDecl => some .classKw
  | .interfaceDecl => some .interfaceKw
  | .functionDecl => some .functionKw
  | .variableDecl => some .varKw
  | .constantDecl => some .constKw
  | .namespaceDecl => some .namespaceKw
  | _ => none

/-- Nothing more is asked of a node than that its children are common. -/
def isCommon (k : Kind) : Bool :=
  k != .error && k != .propertyAttribute && k != .sourceFile && k != .importStmt &&
    !braced.contains k && k.opener?.isNone && k.introducer?.isNone

end Kind

/-! ## Shapes -/

namespace Shape

/-- The kinds of the tokens of some shapes, each with whether it starts a line. -/
def starts (ss : List Shape) : List (Kind × Bool) :=
  (tokensAll ss).map fun t => (t.kind, t.startsLine)

/-- The first token is of the kind. -/
def OpenWith (k : Kind) (ss : List Shape) : Prop := ∃ line more, starts ss = (k, line) :: more

/-- A node of the kind. -/
def isNode (k : Kind) : Shape → Bool
  | .token .. => false
  | .node kind .. => kind == k

/-- An error node holds no closing brace, or it holds nothing but annotations. -/
def Spares : Shape → Prop
  | .token .. => True
  | .node kind _ kids => kind = .error →
      (∀ t ∈ tokensAll kids, t.kind ≠ .rCurly) ∨ ∀ c ∈ kids, c.isNode .metadata = true

/-- A token, but no closing brace. -/
def IsSkipped (c : Shape) : Prop := ∃ kind field leading text trailing,
  c = .token kind field leading text trailing ∧ kind ≠ .rCurly

/-- An error node around one closing brace. -/
def IsStray (c : Shape) : Prop := ∃ field leading text trailing,
  c = .node .error field [.token .rCurly none leading text trailing]

/-- A child that may stand anywhere.  Errors are looked at only if `q` holds. -/
structure Common (q : Prop) (c : Shape) : Prop where
  brace : c.isToken .rCurly = false
  qualifier : c.isNode .propertyAttribute = false
  error : q → c.Spares

/-- A word in front of a declaration, in the slot for modifiers. -/
def IsModifier (word : Text) (c : Shape) : Prop := ∃ kind k leading trailing,
  c = .node kind (some .modifier) [.token k none leading word trailing] ∧
    (k = .name ∨ k.isKeyword = true)

/-- Does the first of some shapes start a line?  Without any, `line` tells what follows. -/
def lineBehind (line : Bool) : List Shape → Bool
  | [] => line
  | c :: _ => c.startsLine

/-- Modifiers in a row: behind each that is no attribute something follows on its line.  Whether
what is behind the last one starts a line is told by `line`. -/
def LeadOn (line : Bool) : List Shape → Prop
  | [] => True
  | c :: cs =>
    (∃ word, c.IsModifier word ∧ (isAttributeWord word = true ∨ lineBehind line cs = false)) ∧
      LeadOn line cs

/-- What a declaration is made of: annotations, modifiers, and the rest with its keyword in front.
Only a class has no namespaces in front of it. -/
def Declares (keyword : Kind) (kids : List Shape) : Prop :=
  ∃ annotations words rest line more, kids = annotations ++ words ++ rest ∧
    starts rest = (keyword, line) :: more ∧ (∀ c ∈ annotations, c.isNode .metadata = true) ∧
    LeadOn line words ∧ (keyword = .classKw → ∀ c ∈ words, c.isNode .propertyAttribute = false) ∧
    ∀ c ∈ rest, c.isNode .propertyAttribute = false

/-- What is known of every node.  Errors are looked at only if `q` holds. -/
structure Orderly (q : Prop) (kind : Kind) (kids : List Shape) : Prop where
  brace : kind ≠ .error → ∀ before c behind, kids = before ++ c :: behind →
  c.isToken .rCurly = true →
    kind ∈ Kind.braced ∧ behind = []
  error : q → ∀ c ∈ kids, c.Spares ∨ (kind = .importStmt ∧ c.slot? = some .name)
  qualifier : kind.introducer? = none → ∀ c ∈ kids, c.isNode .propertyAttribute = false
  declares : ∀ keyword ∈ kind.introducer?, Declares keyword kids
  opening : ∀ k ∈ kind.opener?, OpenWith k kids

section
variable (ss ts : List Shape)

@[simp] theorem starts_nil : starts [] = [] := by
  simp [starts]

@[simp] theorem starts_append : starts (ss ++ ts) = starts ss ++ starts ts := by
  simp [starts]

@[simp] theorem starts_token (kind : Kind) (field : Option Field) (leading : List Trivia)
    (text : Text) (trailing : List Trivia) : starts [.token kind field leading text trailing] =
      [(kind, leading.any Trivia.breaksLine)] := by
  simp [starts, Shape.kind, startsLine, firstStartsLine]

@[simp] theorem starts_node (kind : Kind) (field : Option Field) :
    starts [.node kind field ss] = starts ss := by
  simp [starts]

@[simp] theorem starts_withField (f : Field) (s : Shape) : starts [s.withField f] = starts [s] := by
  cases s <;> simp [withField]

end

variable {q : Prop} {kind : Kind} {kids : List Shape}

/-- A node with common children only is orderly if it opens as it should. -/
theorem Orderly.of_common (hkids : ∀ c ∈ kids, c.Common q) (hkind : kind.introducer? = none)
    (hopening : ∀ k ∈ kind.opener?, OpenWith k kids) : Orderly q kind kids where
  brace _ before c behind heq htoken := by
    rw [(hkids c (by simp [heq])).brace] at htoken
    cases htoken
  error hq c hc := .inl ((hkids c hc).error hq)
  qualifier _ c hc := (hkids c hc).qualifier
  declares keyword hkeyword := by
    rw [hkind] at hkeyword
    cases hkeyword
  opening := hopening

theorem Orderly.of_isCommon (hkids : ∀ c ∈ kids, c.Common q) (hkind : kind.isCommon = true) :
    Orderly q kind kids := by
  simp only [Kind.isCommon, Bool.and_eq_true, Option.isNone_iff_eq_none] at hkind
  refine .of_common hkids hkind.2 fun k hk => ?_
  rw [hkind.1.2] at hk
  cases hk

/-- A file holds common children and closing braces that close nothing. -/
theorem Orderly.of_filed (h : ∀ c ∈ kids, c.Common q ∨ c.IsStray) :
    Orderly False .sourceFile kids where
  brace _ before c behind heq htoken := by
    rcases h c (by simp [heq]) with hc | ⟨field, leading, text, trailing, rfl⟩
    · rw [hc.brace] at htoken
      cases htoken
    · cases htoken
  error h := h.elim
  qualifier _ c hc := by
    rcases h c hc with hc | ⟨field, leading, text, trailing, rfl⟩
    · exact hc.qualifier
    · rfl
  declares _ hkeyword := by cases hkeyword
  opening _ hk := by cases hk

theorem common_of_isCommon {field : Option Field} (hkind : kind.isCommon = true) :
    (node kind field kids).Common q := by
  simp only [Kind.isCommon, Bool.and_eq_true, bne_iff_ne] at hkind
  exact ⟨rfl, by simpa [isNode] using hkind.1.1.1.1.1.2,
    fun _ herror => absurd herror hkind.1.1.1.1.1.1⟩

@[simp] theorem isNode_withField (k : Kind) (f : Field) (s : Shape) :
    (s.withField f).isNode k = s.isNode k := by
  cases s <;> rfl

@[simp] theorem isToken_withField (k : Kind) (f : Field) (s : Shape) :
    (s.withField f).isToken k = s.isToken k := by
  cases s <;> rfl

@[simp] theorem spares_withField {f : Field} {s : Shape} : (s.withField f).Spares ↔ s.Spares := by
  cases s <;> rfl

theorem Common.withField {c : Shape} (h : c.Common q) (f : Field) : (c.withField f).Common q :=
  ⟨by simpa using h.brace, by simpa using h.qualifier, by simpa using h.error⟩

end Shape

/-! ## States -/

namespace State

/-- A parse that has not been stopped; if `q` holds, rules are never nested too deeply. -/
structure Calm (q : Prop) (s : State) : Prop where
  aborted : s.aborted = none
  reports : q → ∀ d ∈ s.reports, d.cause ≠ .syntactic .nestingTooDeep

/-- On top of `base` orderly children have been gathered, common ones if `l` asks for that. -/
def Over (q : Prop) (l : Bool) (base : List Shape) (s : State) : Prop :=
  ∃ top, s.children = top ++ base ∧ (top = [] → base = []) ∧
    ∀ c ∈ top, c.Every (Shape.Orderly q) ∧ (l = true → c.Common q)

/-- The children are orderly, and each is common or a closing brace that closes nothing. -/
def Filed (q : Prop) (s : State) : Prop :=
  ∀ c ∈ s.children, c.Every (Shape.Orderly q) ∧ (c.Common q ∨ c.IsStray)

variable {q : Prop} {l : Bool} {base : List Shape} {s t : State}

theorem Leads.calm (h : s.Leads t) (ht : t.Calm q) : s.Calm q :=
  ⟨h.aborted ht.aborted, fun hq d hd => ht.reports hq d (h.reports.subset hd)⟩

theorem Calm.of_close {outer : List Shape} {kind : Kind}
    (h : (t.close outer kind).Calm q) : t.Calm q :=
  ⟨h.aborted, h.reports⟩

/-- One more child is gathered. -/
theorem Over.push {c : Shape} (h : s.Over q l base) (ht : t.children = c :: s.children)
    (hc : c.Every (Shape.Orderly q) ∧ (l = true → c.Common q)) : t.Over q l base := by
  obtain ⟨top, hs, -, htop⟩ := h
  exact ⟨c :: top, by rw [ht, hs, List.cons_append], fun hnil => (by cases hnil),
    List.forall_mem_cons.2 ⟨hc, htop⟩⟩

theorem Over.of_children (h : s.Over q l base) (ht : t.children = s.children) :
    t.Over q l base := by
  rw [Over, ht]
  exact h

theorem over_enter_nil (limits : Limits) : (s.enter limits []).Over q l [] :=
  ⟨[], rfl, fun _ => rfl, fun _ hc => absurd hc List.not_mem_nil⟩

theorem Over.labelLast (h : s.Over q l base) (field : Field) :
    (s.labelLast field).Over q l base := by
  obtain ⟨top, hs, hbase, htop⟩ := h
  cases top with
  | nil =>
    obtain rfl := hbase rfl
    have hnil : s.children = [] := hs
    exact ⟨[], by rw [State.labelLast, hnil]; exact hnil, fun _ => rfl, htop⟩
  | cons c top =>
    obtain ⟨⟨hc, hcommon⟩, htop⟩ := List.forall_mem_cons.1 htop
    exact ⟨c.withField field :: top, State.labelLast_children _ _ hs, fun hnil => (by cases hnil),
      List.forall_mem_cons.2
        ⟨⟨Shape.every_withField.2 hc, fun hl => (hcommon hl).withField field⟩, htop⟩⟩

/-- All children of a new node are orderly. -/
theorem Over.forall_children (h : s.Over q l []) :
    ∀ c ∈ s.children, c.Every (Shape.Orderly q) ∧ (l = true → c.Common q) := by
  obtain ⟨top, hs, -, htop⟩ := h
  rwa [hs, List.append_nil]

/-- What has been seen is no closing brace. -/
theorem sees_ne_of_kind [Alphabet] {mode : Mode} {k : Kind} (h : (s.place.next mode).1.kind = k)
    (hk : k ≠ .rCurly) : (s.inMode mode).Sees (·.kind ≠ .rCurly) := by
  subst h
  exact fun _ => hk

end State

/-! ## Parsers -/

variable [Alphabet]

/-- Where a rule takes no closing brace: an element takes its first token as it is. -/
def Rule.Clear : Rule → State → Prop
  | .element, s => s.Sees (·.kind ≠ .rCurly)
  | _, _ => True

namespace Setting

variable {α β : Type}

/-- The nodes that the parser makes by itself are orderly; if `l` asks for that, it adds only common
children to the open node. -/
def Orders (E : Setting) (q : Prop) : {α : Type} → Bool → Parser α → State → Prop
  | _, l, .andThen first next, s =>
    Orders E q l first s ∧ Orders E q l (next (E.val first s)) (E.after first s)
  | _, l, .take _, s => l = true → s.Sees (·.kind ≠ .rCurly)
  | _, l, .takeWord keyword _, _ => l = true → keyword ≠ .rCurly
  | _, l, .node body, s =>
    let u := s.enter E.limits []
    ((E.val body u).1.isCommon = true → Orders E q true body u) ∧
    ((E.val body u).1.isCommon = false → ∃ strict, Orders E q strict body u ∧
      ((E.after body u).Calm q →
        (∀ c ∈ (E.after body u).children, c.Every (Shape.Orderly q) ∧
          (strict = true → c.Common q)) →
        Shape.Orderly q (E.val body u).1 (E.after body u).children.reverse ∧
          (l = true →
            (Shape.node (E.val body u).1 none (E.after body u).children.reverse).Common q)))
  | _, l, .wrap field body, s =>
    let u := s.enter E.limits ((s.children.take 1).map (Shape.withField field))
    l = true ∧ (E.val body u).isCommon = true ∧ Orders E q true body u
  | _, l, .loop body, _ => ∀ t, Orders E q l body t
  | _, _, .call rule, s => rule.Clear s
  | _, _, _, _ => True

/-- The rules make common, orderly nodes. -/
def Ordered (E : Setting) (q : Prop) : Prop :=
  ∀ (rule : Rule) (s : State), rule.Clear s → (E.apply rule s).Calm q → ∃ kind kids,
    (E.apply rule s).children = .node kind none kids :: s.children ∧
    (Shape.node kind none kids).Every (Shape.Orderly q) ∧ (Shape.node kind none kids).Common q

variable {E : Setting} {q : Prop} {l : Bool} {s : State} {base : List Shape}

/-- A token that is taken is common, if that is asked. -/
theorem common_take {field : Option Field} (hp : E.Orders q l (.take field) s)
    (ht : (E.after (.take field) s).Calm q) :
    let c := Shape.token s.token.kind field s.token.leading s.token.text s.token.trailing
    c.Every (Shape.Orderly q) ∧ (l = true → c.Common q) := by
  refine ⟨Shape.every_token _ _ _ _ _, fun hl => ?_⟩
  have ha := (State.Leads.takeAs s E.limits s.token.kind field).aborted ht.aborted
  exact ⟨by simpa [Shape.isToken] using hp hl ha, rfl, fun _ => trivial⟩

theorem common_takeWord {keyword : Kind} {field : Option Field}
    (hp : E.Orders q l (.takeWord keyword field) s) :
    let c := Shape.token keyword field s.token.leading s.token.text s.token.trailing
    c.Every (Shape.Orderly q) ∧ (l = true → c.Common q) :=
  ⟨Shape.every_token _ _ _ _ _,
    fun hl => ⟨by simpa [Shape.isToken] using hp hl, rfl, fun _ => trivial⟩⟩

/-- A node is orderly if what its body makes is in order. -/
theorem common_node {body : Parser (Kind × α)} (hp : E.Orders q l (.node body) s)
    (hbody : ∀ strict, E.Orders q strict body (s.enter E.limits []) →
      (E.after body (s.enter E.limits [])).Over q strict [])
    (ht : (E.after body (s.enter E.limits [])).Calm q) :
    let c := Shape.node (E.val body (s.enter E.limits [])).1 none
      (E.after body (s.enter E.limits [])).children.reverse
    c.Every (Shape.Orderly q) ∧ (l = true → c.Common q) := by
  dsimp only
  rw [Shape.every_node]
  cases hkind : (E.val body (s.enter E.limits [])).1.isCommon with
  | true =>
    have hkids := (hbody true (hp.1 hkind)).forall_children
    have hcommon : ∀ c ∈ (E.after body (s.enter E.limits [])).children.reverse, c.Common q :=
      fun c hc => (hkids c (List.mem_reverse.1 hc)).2 rfl
    exact ⟨⟨.of_isCommon hcommon hkind, fun c hc => (hkids c (List.mem_reverse.1 hc)).1⟩,
      fun _ => Shape.common_of_isCommon hkind⟩
  | false =>
    obtain ⟨strict, hstrict, hnode⟩ := hp.2 hkind
    have hkids := (hbody strict hstrict).forall_children
    obtain ⟨horderly, hcommon⟩ := hnode ht hkids
    exact ⟨⟨horderly, fun c hc => (hkids c (List.mem_reverse.1 hc)).1⟩, hcommon⟩

/-- **What a parser makes is in order**, if the rules make what is. -/
theorem over_after (hE : E.Ordered q) {p : Parser α} (hp : E.Orders q l p s) (hs : s.Over q l base)
    (ht : (E.after p s).Calm q) : (E.after p s).Over q l base := by
  induction p generalizing s l base with
  | done value => exact hs
  | andThen first next ihFirst ihNext =>
    exact ihNext _ hp.2 (ihFirst hp.1 hs ((E.leads_after _ _).calm ht)) ht
  | look mode => exact hs.of_children rfl
  | ahead distance => exact hs.of_children rfl
  | take field =>
    exact hs.push (State.takeAs_children _ _ _ _) (common_take hp ht)
  | takeWord keyword field =>
    exact hs.push (State.takeAs_children _ _ _ _) (common_takeWord hp)
  | report error => exact hs.of_children (State.report_children _ _)
  | node body ih =>
    have hinner := ht.of_close
    exact hs.push (State.close_children _ _ _)
      (common_node hp (fun strict hbody => ih hbody (State.over_enter_nil _) hinner) hinner)
  | wrap field body ih =>
    obtain ⟨rfl, hkind, hbody⟩ := hp
    rw [after_wrap] at ht ⊢
    have hinner := ht.of_close
    obtain ⟨top, htop, hbase, hcommon⟩ := hs
    have hwrapped :
        (s.enter E.limits ((s.children.take 1).map (Shape.withField field))).Over q true [] := by
      refine ⟨_, (List.append_nil _).symm, fun _ => rfl, fun c hc => ?_⟩
      obtain ⟨d, hd, rfl⟩ := List.mem_map.1 hc
      have hd : d ∈ top := by
        cases top with
        | nil => simp [htop, hbase rfl] at hd
        | cons c top =>
          rw [htop, List.cons_append, List.take_succ_cons, List.take_zero, List.mem_singleton] at hd
          exact hd ▸ List.mem_cons_self
      exact ⟨Shape.every_withField.2 (hcommon d hd).1, fun _ => ((hcommon d hd).2 rfl).withField _⟩
    have hkids := (ih hbody hwrapped hinner).forall_children
    have hdrop : s.children.drop 1 = top.drop 1 ++ base := by
      cases top with
      | nil => simp [htop, hbase rfl]
      | cons c top => simp [htop]
    refine ⟨_ :: top.drop 1, by rw [State.close_children, hdrop]; rfl, fun hnil => (by cases hnil),
      List.forall_mem_cons.2
        ⟨⟨Shape.every_node.2 ⟨?_, ?_⟩, fun _ => Shape.common_of_isCommon hkind⟩,
        fun c hc => hcommon c (List.mem_of_mem_drop hc)⟩⟩
    · exact .of_isCommon (fun c hc => (hkids c (List.mem_reverse.1 hc)).2 rfl) hkind
    · exact fun c hc => (hkids c (List.mem_reverse.1 hc)).1
  | label field => exact hs.labelLast field
  | loop body ih =>
    refine after_loop_induct (fun t => t.Calm q → t.Over q l base) (fun _ => hs)
      (fun t stalled h ht => (h ⟨ht.aborted, ht.reports⟩).of_children rfl)
      (fun t h ht => ih (hp t) (h ((E.leads_after body t).calm ht)) ht) ht
  | call rule =>
    obtain ⟨kind, kids, hchildren, hevery, hcommon⟩ := hE rule s hp ht
    exact hs.push hchildren ⟨hevery, fun _ => hcommon⟩
  | require mode kind => exact hs.of_children rfl

end Setting

end ActionScript
