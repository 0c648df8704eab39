import ActionScript.Proofs.Order.Expressions

/-!
# Declarations are orderly

In front of the keyword of a declaration stand its annotations and its modifiers, and behind each
modifier that is no attribute the next word follows on the same line, as it was seen when the
declaration was recognised.

* `Setting.row_modifiers`: what the modifiers are, and that they lead up to the keyword.
* `Shape.orderly_declared`: **what a declaration is made of**.
* `Setting.orders_declaration`, `Setting.orders_annotated`, `Setting.orders_variableHead`:
  declarations are orderly.
-/

set_option autoImplicit false

namespace ActionScript

open ActionScript.Parser ActionScript.Grammar

namespace Shape

/-- One more modifier in a row. -/
theorem LeadOn.concat {line : Bool} {words : List Shape} {c : Shape} {word : Text}
    (h : LeadOn c.startsLine words) (hc : c.IsModifier word)
    (hline : isAttributeWord word = true ∨ line = false) : LeadOn line (words ++ [c]) := by
  induction words with
  | nil => exact ⟨⟨word, hc, hline⟩, trivial⟩
  | cons d words ih =>
    obtain ⟨⟨other, hd, hbehind⟩, hwords⟩ := h
    refine ⟨⟨other, hd, hbehind.imp_right fun hline => ?_⟩, ih hwords⟩
    cases words with
    | nil => exact hline
    | cons e words => exact hline

theorem LeadOn.isModifier {line : Bool} {words : List Shape} (h : LeadOn line words) :
    ∀ c ∈ words, ∃ word, c.IsModifier word := by
  induction words with
  | nil => exact fun _ hc => absurd hc List.not_mem_nil
  | cons c words ih => exact List.forall_mem_cons.2 ⟨⟨_, h.1.choose_spec.1⟩, ih h.2⟩

/-- A modifier holds no closing brace. -/
theorem IsModifier.spares {word : Text} {c : Shape} (h : c.IsModifier word) :
    c.isToken .rCurly = false ∧ c.Spares := by
  obtain ⟨kind, k, leading, trailing, rfl, hk⟩ := h
  refine ⟨rfl, fun _ => .inl ?_⟩
  have hne : k ≠ .rCurly := by
    rintro rfl
    rcases hk with hk | hk <;> cases hk
  simpa [Shape.kind] using hne

theorem spares_of_isNode {kind : Kind} {c : Shape} (h : c.isNode kind = true)
    (hkind : kind ≠ .error) : c.isToken .rCurly = false ∧ c.Spares := by
  cases c with
  | token => cases h
  | node other field kids =>
    obtain rfl : other = kind := by simpa [isNode] using h
    exact ⟨rfl, fun herror => absurd herror hkind⟩

variable {q : Prop} {keyword kind : Kind}

/-- No declaration is an error or a namespace, and no other token tells that it opens. -/
theorem of_introducer (h : kind.introducer? = some keyword) :
    kind.isCommon = false ∧ kind ≠ .error ∧
    kind ≠ .propertyAttribute ∧ kind ≠ .sourceFile ∧ kind ≠ .importStmt ∧ kind.opener? = none := by
  have hkinds (k : Kind) (hk : k.introducer?.isSome = true) : k.isCommon = false ∧ k ≠ .error ∧
      k ≠ .propertyAttribute ∧ k ≠ .sourceFile ∧ k ≠ .importStmt ∧ k.opener? = none := by
    cases k <;> first | exact absurd hk (by decide) | decide
  exact hkinds kind (by simp [h])

/-- **A declaration** is orderly: annotations, modifiers in a row, and what its keyword begins. -/
theorem orderly_declared (hkind : kind.introducer? = some keyword) {line : Bool}
    {more : List (Kind × Bool)} {annotations words rest : List Shape}
    (hannotations : ∀ c ∈ annotations, c.isNode .metadata = true) (hwords : LeadOn line words)
    (hclass : keyword = .classKw → ∀ c ∈ words, c.isNode .propertyAttribute = false)
    (hrest : ∀ c ∈ rest, c.Common q) (hstarts : starts rest = (keyword, line) :: more) :
    Orderly q kind (annotations ++ words ++ rest) := by
  have hspares : ∀ c ∈ annotations ++ words ++ rest,
      c.isToken .rCurly = false ∧ (q → c.Spares) := by
    intro c hc
    rcases List.mem_append.1 hc with hc | hc
    · rcases List.mem_append.1 hc with hc | hc
      · exact (spares_of_isNode (hannotations c hc) (by decide)).imp_right fun h _ => h
      · obtain ⟨word, hword⟩ := hwords.isModifier c hc
        exact hword.spares.imp_right fun h _ => h
    · exact ⟨(hrest c hc).brace, (hrest c hc).error⟩
  refine ⟨fun _ before c behind heq htoken => ?_,
    fun hq c hc => .inl ((hspares c hc).2 hq), ?_, ?_, ?_⟩
  · rw [(hspares c (by simp [heq])).1] at htoken
    cases htoken
  · rw [hkind]
    exact fun h => (by cases h)
  · intro other hother
    obtain rfl : keyword = other := by simpa [hkind] using hother
    exact ⟨annotations, words, rest, line, more, rfl, hstarts, hannotations, hwords, hclass,
      fun c hc => (hrest c hc).qualifier⟩
  · rw [(of_introducer hkind).2.2.2.2.2]
    exact fun _ h => (by cases h)

/-- A declaration is common where it stands. -/
theorem common_declared (hkind : kind.introducer? = some keyword) {kids : List Shape} :
    (node kind none kids).Common q := by
  obtain ⟨-, herror, hqualifier, -⟩ := of_introducer hkind
  exact ⟨rfl, by simpa [isNode] using hqualifier, fun _ h => absurd h herror⟩

end Shape

namespace Setting

variable [Alphabet] {E : Setting} {q : Prop} {l : Bool} {s : State} {α β : Type}

/-! ## Annotations -/

@[simp] theorem orders_metadataArgument? : E.Orders q l metadataArgument? s := by
  simp only [metadataArgument?, orders_bind, orders_look, val_look, after_look, orders_ite,
    orders_pure, glimpse_kind, Place.next_operator_kind, true_and, and_true, implies_true]
  intro _
  rw [orders_nodeOf (by decide)]
  simp only [orders_bind, orders_ahead, val_ahead, after_ahead, orders_when, orders_name,
    orders_take, orders_assignment, glimpse_kind, true_and, and_true, Bool.and_eq_true, beq_iff_eq]
  rintro ⟨hname, heq⟩ -
  have hne : (State.tokenAhead 1 ((s.inMode .operator).enter E.limits []).place).kind ≠ .eof := by
    simp [heq]
  have hplace := place_enter_of_tokenAhead hne
  have hahead : ((s.inMode .operator).enter E.limits []).place.ahead = .name := by
    rw [hplace]
    exact hname
  have hbehind := seesBehind_of_tokenAhead (P := (·.kind ≠ .rCurly)) (by simp [heq]) hne
  exact (takes_name (s := ((s.inMode .operator).enter E.limits []).inMode .operator)
    hahead).sees hbehind

theorem orders_metadata (h : s.Sees (·.kind = .lBrack)) : E.Orders q l metadata s := by
  simp only [metadata, orders_bind, orders_label, and_true]
  refine orders_opened rfl ?_ fun ha => ?_
  · simp only [orders_bind, orders_take, orders_name, orders_sees, val_sees, after_sees,
      orders_when, orders_label, true_and, and_true, beq_iff_eq]
    refine ⟨fun _ => (h.enter _ _).mono fun t ht => by simp [ht], fun hparen => ?_,
      orders_expect fun _ => by decide⟩
    rw [orders_nodeOf (by decide)]
    refine orders_delimited ?_ (fun _ => by decide) fun _ => orders_metadataArgument?
    exact (State.sees_ne_of_kind hparen (by decide)).enter _ _
  · exact openWith_take h ha

@[simp] theorem orders_metadataRun : E.Orders q l metadataRun s := by
  intro t
  simp only [orders_bind, after_behindMetadata?, orders_ite, orders_pure, and_true, implies_true]
  refine ⟨orders_of_onlyLooks (onlyLooks_behindMetadata? 0), fun h => orders_metadata ?_⟩
  exact State.sees_inMode.2 fun _ => ahead_of_behindMetadata? h

/-- Annotations in a row are nothing else. -/
theorem isNode_metadataRun (hs : ∀ c ∈ s.children, c.isNode .metadata = true) :
    ∀ c ∈ (E.after metadataRun s).children, c.isNode .metadata = true := by
  refine after_loop_induct (fun t => ∀ c ∈ t.children, c.isNode .metadata = true) hs
    (fun _ _ h => h)
    fun t ht => ?_
  rw [after_bind, after_behindMetadata?, after_ite]
  split
  · rw [after_bind, after_pure, metadata, after_bind, after_nodeOf, after_label,
      State.labelLast_children _ _ (State.close_children _ _ _)]
    exact List.forall_mem_cons.2 ⟨rfl, ht⟩
  · exact ht

/-! ## Modifiers -/

/-- A node around the next token. -/
theorem children_around {kind k : Kind}
    (ha : ((s.enter E.limits []).takeAs E.limits k none).aborted = none) :
    (((s.enter E.limits []).takeAs E.limits k none).close s.children kind).children =
      .node kind none [.token k none s.token.leading s.token.text s.token.trailing] ::
        s.children := by
  have ha' := (State.Leads.takeAs (s.enter E.limits []) E.limits k none).aborted ha
  rw [State.close_children, State.takeAs_children, State.enter_children, List.reverse_singleton]
  rcases s.enter_cases E.limits [] with ⟨hp, hm, -⟩ | ⟨hna, -⟩
  · rw [State.token, hp, hm]
    rfl
  · exact absurd ha' hna

/-- The word in front of a declaration's keyword, as it comes next in the text. -/
def modifierOrError (keyword : Kind) (g : Glimpse) : Parser Unit :=
  if keyword == .classKw then
    if g.isOneOf classAttributes then modifier .classAttribute g
    else reject (.notClassAttribute g.text)
  else if g.isOneOf classAttributes && !g.isOneOf propertyAttributes
    then reject (.onlyOnClasses g.text)
  else modifier .propertyAttribute g

omit [Alphabet] in
theorem modifiers_eq (keyword : Kind) : modifiers keyword = (loop do
    let g ← look .operator
    if g.kind != .name || keyword.spells g.text then return false
    else
      modifierOrError keyword g
      label .modifier
      return true) := rfl

/-- The word that comes next, as the only token of a node. -/
def Wraps (s t : State) (kind : Kind) : Prop := ∃ k, (k = .name ∨ k.isKeyword = true) ∧
  t.children = .node kind none
    [.token k none s.token.leading s.token.text s.token.trailing] :: s.children

theorem wraps_leaf {kind : Kind} (h : s.Sees (·.kind = .name))
    (ha : (E.after (leaf kind) s).aborted = none) : Wraps s (E.after (leaf kind) s) kind := by
  refine ⟨_, .inl ?_, children_around ha⟩
  exact h.enter _ _ ((State.Leads.takeAs (s.enter E.limits []) E.limits _ none).aborted ha)

theorem wraps_modifier {kind : Kind} {g : Glimpse} (h : s.Sees (·.kind = .name))
    (ha : (E.after (modifier kind g) s).aborted = none) :
    Wraps s (E.after (modifier kind g) s) kind := by
  unfold modifier at ha ⊢
  split at ha
  · rename_i keyword hword
    exact ⟨keyword, .inr (List.mem_filter.1 (List.mem_of_find?_eq_some hword)).2,
      children_around ha⟩
  · exact wraps_leaf h ha

theorem wraps_reject {error : SyntaxError} (hname : s.place.ahead = .name)
    (ha : (E.after (reject error) (s.inMode .operator)).aborted = none) :
    Wraps (s.inMode .operator) (E.after (reject error) (s.inMode .operator)) .error := by
  have hne : (s.place.ahead == .eof) = false := by simp [hname]
  simp only [reject, after_bind, val_sees, after_sees, State.inMode_place, State.inMode_inMode, hne,
    Bool.false_eq_true, if_false, after_report] at ha ⊢
  have hsees : ((s.inMode .operator).report error).Sees (·.kind = .name) := by
    simpa using fun _ => hname
  simpa [Wraps] using wraps_leaf hsees ha

/-- A modifier is a node around one word; no namespace stands in front of a class. -/
theorem exists_modifierOrError (keyword : Kind) (hname : s.place.ahead = .name)
    (ha : (E.after (modifierOrError keyword (State.glimpse (s.place.next .operator).1))
      (s.inMode .operator)).aborted = none) :
    ∃ kind, Wraps (s.inMode .operator) (E.after (modifierOrError keyword
        (State.glimpse (s.place.next .operator).1)) (s.inMode .operator)) kind ∧
      (keyword = .classKw → kind ≠ .propertyAttribute) := by
  have hsees : (s.inMode .operator).Sees (·.kind = .name) := State.sees_inMode.2 fun _ => hname
  simp only [modifierOrError, after_ite] at ha ⊢
  split at ha
  · split at ha
    · rename_i hclass hattribute
      rw [if_pos hclass, if_pos hattribute]
      exact ⟨_, wraps_modifier hsees ha, fun _ => by decide⟩
    · rename_i hclass hattribute
      rw [if_pos hclass, if_neg hattribute]
      exact ⟨_, wraps_reject hname ha, fun _ => by decide⟩
  · rename_i hclass
    have hother : keyword ≠ .classKw := by simpa using hclass
    rw [if_neg hclass]
    split at ha
    · rename_i honly
      rw [if_pos honly]
      exact ⟨_, wraps_reject hname ha, fun h => absurd h hother⟩
    · rename_i honly
      rw [if_neg honly]
      exact ⟨_, wraps_modifier hsees ha, fun h => absurd h hother⟩

theorem takes_modifierOrError (keyword : Kind) (g : Glimpse) (hname : s.place.ahead = .name) :
    (s.inMode .operator).Takes (E.after (modifierOrError keyword g) (s.inMode .operator)) := by
  have hreject (error : SyntaxError) :
      (s.inMode .operator).Takes (E.after (reject error) (s.inMode .operator)) :=
    takes_reject (s := s.inMode .operator) (by simp [hname])
  simp only [modifierOrError, after_ite]
  split
  · split
    · exact takes_modifier _ _
    · exact hreject _
  · split
    · exact hreject _
    · exact takes_modifier _ _

/-- On top of `base` modifiers stand in a row that lead up to the next token. -/
def Row (keyword : Kind) (base : List Shape) (t : State) : Prop :=
  ∃ words, t.children = words.reverse ++ base ∧
    Shape.LeadOn (t.place.next .operator).1.startsLine words ∧
    (keyword = .classKw → ∀ c ∈ words, c.isNode .propertyAttribute = false)

/-- One more word in front of the keyword. -/
theorem Row.push {keyword kind : Kind} {base : List Shape} {t u : State} (h : Row keyword base t)
    (hu : Wraps (t.inMode .operator) u kind)
    (hkind : keyword = .classKw → kind ≠ .propertyAttribute)
    (hline : isAttributeWord (t.place.next .operator).1.text = true ∨
      (u.place.next .operator).1.startsLine = false) : Row keyword base
      (u.labelLast .modifier) := by
  obtain ⟨words, hwords, hlead, hclass⟩ := h
  obtain ⟨k, hk, hchildren⟩ := hu
  let c : Shape := .node kind (some .modifier) [.token k none (t.place.next .operator).1.leading
    (t.place.next .operator).1.text (t.place.next .operator).1.trailing]
  have hlabelled : (u.labelLast .modifier).children = c :: t.children :=
    State.labelLast_children _ .modifier hchildren
  refine ⟨words ++ [c], by simp [hlabelled, hwords], ?_, fun hkey => ?_⟩
  · rw [State.labelLast_place]
    refine Shape.LeadOn.concat ?_ ⟨kind, k, _, _, rfl, hk⟩ hline
    have hstarts : c.startsLine = (t.place.next .operator).1.startsLine := by
      simp [c, Shape.startsLine, Shape.firstStartsLine, Token.startsLine]
    rwa [hstarts]
  · refine List.forall_mem_append.2 ⟨hclass hkey, List.forall_mem_singleton.2 ?_⟩
    simpa [c, Shape.isNode] using hkind hkey

/-- **The modifiers of a declaration** stand in a row. -/
theorem row_modifiers {keyword : Kind} (h : s.aborted = none → s.place.LeadsTo keyword)
    (ha : (E.after (modifiers keyword) s).aborted = none) :
    Row keyword s.children (E.after (modifiers keyword) s) := by
  rw [modifiers_eq] at ha ⊢
  refine after_loop_outcome
    (fun t => t.aborted = none → t.place.LeadsTo keyword ∧ Row keyword s.children t)
    (fun t => t.aborted = none → Row keyword s.children t) (fun ha => ⟨h ha, [], rfl, trivial, ?_⟩)
    (fun t stalled ht => ht) (fun t ht ha => (ht ha).2) ?_ ?_ ha
  · exact fun _ _ hc => absurd hc List.not_mem_nil
  · intro t ht hgo ha
    rw [after_bind, after_look, val_look, after_ite] at ha ⊢
    rw [val_bind, after_look, val_look, val_ite] at hgo
    split at hgo
    · cases hgo
    · rename_i hword
      rw [if_neg hword] at ha ⊢
      simp only [after_bind, after_label, after_pure, State.labelLast_aborted] at ha ⊢
      obtain ⟨hname, hother⟩ : t.place.ahead = .name ∧
          keyword.spells (t.place.next .operator).1.text = false := by
        simpa using hword
      have htakes :=
        takes_modifierOrError (E := E) keyword (State.glimpse (t.place.next .operator).1) hname
      obtain ⟨-, hrow⟩ := ht (htakes ha).1
      obtain ⟨hleads, hline⟩ := leadsTo_of_takes (fun ha => (ht ha).1) hother htakes ha
      obtain ⟨kind, hwraps, hkind⟩ := exists_modifierOrError keyword hname ha
      exact ⟨by rwa [State.labelLast_place], hrow.push hwraps hkind hline⟩
  · intro t ht hstop ha
    rw [after_bind, after_look, val_look, after_ite] at ha ⊢
    rw [val_bind, after_look, val_look, val_ite] at hstop
    split at hstop
    · rename_i hword
      rw [if_pos hword] at ha ⊢
      exact (ht ha).2
    · cases hstop

/-- A node that is not looked at need not be common itself. -/
theorem orders_nodeOf_lax {kind : Kind} {body : Parser Unit} (hintroducer : kind.introducer? = none)
    (hopener : kind.opener? = none) (hbody : E.Orders q true body (s.enter E.limits [])) :
    E.Orders q false (nodeOf kind body) s := by
  cases hkind : kind.isCommon with
  | true => exact (orders_nodeOf hkind).2 hbody
  | false =>
    refine orders_nodeOf_uncommon true hkind hbody fun _ hkids => ⟨?_, fun hl => (by cases hl)⟩
    exact .of_common (fun c hc => hkids c hc rfl) hintroducer fun k hk =>
      (by rw [hopener] at hk; cases hk)

theorem orders_modifier {kind : Kind} {g : Glimpse} (h : s.Sees (·.kind = .name))
    (hintroducer : kind.introducer? = none) (hopener : kind.opener? = none) :
    E.Orders q false (modifier kind g) s := by
  unfold modifier
  split
  · rename_i keyword hword
    refine orders_nodeOf_lax hintroducer hopener (orders_takeWord.2 fun _ hcurly => ?_)
    rw [hcurly] at hword
    have hkey := (List.mem_filter.1 (List.mem_of_find?_eq_some hword)).2
    cases hkey
  · exact orders_nodeOf_lax hintroducer hopener fun _ => (h.enter _ _).mono fun t ht => by simp [ht]

/-- The modifiers themselves are not looked at. -/
theorem orders_modifiers (keyword : Kind) : E.Orders q false (modifiers keyword) s := by
  intro t
  have hreject (error : SyntaxError) (u : State) : E.Orders q false (reject error) u :=
    orders_reject fun hl => (by cases hl)
  simp only [orders_bind, orders_look, val_look, after_look, orders_ite, orders_label,
    orders_pure, hreject, glimpse_kind, glimpse_text, Place.next_operator_kind, Bool.or_eq_true,
    bne_iff_ne, ne_eq, not_or, Classical.not_not, true_and, and_true, implies_true, and_imp]
  intro hname _
  have hsees : (t.inMode .operator).Sees (·.kind = .name) := State.sees_inMode.2 fun _ => hname
  exact ⟨fun _ _ => orders_modifier hsees rfl rfl, fun _ _ => orders_modifier hsees rfl rfl⟩

/-! ## The declarations -/

@[simp] theorem orders_clause? {keyword kind : Kind} {field : Field} {body : Parser Unit}
    (hkind : kind.isCommon = true) (hkey : keyword ≠ .rCurly)
    (hbody : ∀ t, E.Orders q true body t) : E.Orders q l (clause? keyword kind field body) s := by
  simp only [clause?, orders_bind, orders_look, orders_when, orders_label, true_and, and_true]
  intro _
  rw [orders_nodeOf hkind]
  exact ⟨fun _ => hkey, hbody _⟩

@[simp] theorem orders_accessor : E.Orders q l accessor s := by
  simp [accessor]

@[simp] theorem orders_declarators (r : Restrictions) : E.Orders q l (declarators r) s := by
  intro t
  simp only [orders_bind, orders_label, true_and]
  refine ⟨?_, orders_eat (by decide)⟩
  rw [orders_nodeOf (by decide)]
  exact ⟨orders_name _ _, orders_typeAscription? _, orders_defaultValue fun _ =>
    orders_callIn.2 trivial⟩

section
variable (hE : E.Ordered q)
include hE

theorem orders_memberBody {kind : Kind} (hkind : kind ∈ Kind.braced)
    (hopener : ∀ k ∈ kind.opener?, k = .lCurly) : E.Orders q l (memberBody kind) s :=
  ⟨orders_braced hE hkind hopener, trivial⟩

/-- What stands behind the keyword of a declaration is common. -/
theorem orders_classBody : E.Orders q l classBody s := by
  refine ⟨orders_takeWord.2 fun _ => by decide, orders_name _ _, ?_, ?_,
    orders_memberBody hE (by decide) (by decide)⟩
  · exact orders_clause? (by decide) (by decide) fun _ => orders_typeIn _
  · exact orders_clause? (by decide) (by decide) fun _ => orders_typeList

theorem orders_interfaceBody : E.Orders q l interfaceBody s := by
  refine ⟨orders_takeWord.2 fun _ => by decide, orders_name _ _, ?_,
    orders_memberBody hE (by decide) (by decide)⟩
  exact orders_clause? (by decide) (by decide) fun _ => orders_typeList

theorem orders_functionBody : E.Orders q l functionBody s := by
  simp [functionBody, orders_block hE]

end

theorem orders_variableBody {keyword : Kind} (h : keyword ≠ .rCurly) :
    E.Orders q l (variableBody keyword) s :=
  ⟨orders_takeWord.2 fun _ => h, orders_declarators _, orders_semicolon⟩

theorem orders_namespaceBody : E.Orders q l namespaceBody s := by
  simp only [namespaceBody, orders_bind, orders_takeWord, orders_name, orders_sees,
    val_sees, after_sees, orders_when, orders_take, orders_assignment, orders_semicolon, and_true,
    true_and, beq_iff_eq]
  exact ⟨fun _ => by decide, fun heq _ => State.sees_ne_of_kind heq (by decide)⟩

/-! ## Whole declarations -/

/-- Behind its modifiers each declaration takes its keyword. -/
theorem declarationBody_eq (hE : E.Ordered q) {keyword : Kind} (h : keyword ∈ declarationKeywords) :
    ∃ (kind : Kind) (body next : Parser Unit), kind.introducer? = some keyword ∧ keyword ≠ .rCurly ∧
      (body = takeWord keyword none >>= fun _ => next) ∧ (∀ l t, E.Orders q l body t) ∧
      ∀ s, E.val (declarationBody keyword) s = kind ∧
        E.after (declarationBody keyword) s = E.after body (E.after (modifiers keyword) s) := by
  have hval (kind keyword : Kind) (body : Parser Unit) (heq : declarationBody keyword = do
      modifiers keyword
      body
      return kind) (s : State) : E.val (declarationBody keyword) s = kind ∧
        E.after (declarationBody keyword) s = E.after body (E.after (modifiers keyword) s) := by
    rw [heq]
    simp only [val_bind, val_pure, after_bind, after_pure, and_self]
  simp only [declarationKeywords, List.mem_cons, List.not_mem_nil, or_false] at h
  rcases h with rfl | rfl | rfl | rfl | rfl | rfl
  · exact ⟨.classDecl, classBody, _, rfl, by decide, rfl, fun _ _ => orders_classBody hE,
      hval _ _ _ rfl⟩
  · exact ⟨.interfaceDecl, interfaceBody, _, rfl, by decide, rfl,
      fun _ _ => orders_interfaceBody hE,
      hval _ _ _ rfl⟩
  · exact ⟨.variableDecl, variableBody .varKw, _, rfl, by decide, rfl,
      fun _ _ => orders_variableBody (by decide), hval _ _ _ rfl⟩
  · exact ⟨.constantDecl, variableBody .constKw, _, rfl, by decide, rfl,
      fun _ _ => orders_variableBody (by decide), hval _ _ _ rfl⟩
  · exact ⟨.functionDecl, functionBody, _, rfl, by decide, rfl, fun _ _ => orders_functionBody hE,
      hval _ _ _ rfl⟩
  · exact ⟨.namespaceDecl, namespaceBody, _, rfl, by decide, rfl, fun _ _ => orders_namespaceBody,
      hval _ _ _ rfl⟩

/-- What a keyword begins, on top of what stands in front of it. -/
theorem exists_rest (hE : E.Ordered q) {keyword : Kind} {next : Parser Unit}
    (hkey : keyword ≠ .rCurly) (hnext : E.Orders q true (takeWord keyword none >>= fun _ => next) s)
    (hmode : s.mode = .operator)
    (ht : (E.after (takeWord keyword none >>= fun _ => next) s).Calm q) :
    ∃ rest more, (E.after (takeWord keyword none >>= fun _ => next) s).children.reverse =
        s.children.reverse ++ rest ∧ (∀ c ∈ rest, c.Common q) ∧
      Shape.starts rest = (keyword, (s.place.next .operator).1.startsLine) :: more := by
  have hword : (E.after (takeWord keyword none) s).Over q true s.children :=
    ⟨[_], State.takeAs_children _ _ _ _, fun hnil => (by cases hnil), List.forall_mem_singleton.2
      ⟨Shape.every_token _ _ _ _ _,
        fun _ => ⟨by simpa [Shape.isToken] using hkey, rfl, fun _ => trivial⟩⟩⟩
  obtain ⟨top, htop, -, hcommon⟩ := over_after hE hnext.2 hword ht
  obtain ⟨more, hmore⟩ := starts_prefix_after (E := E) next (E.after (takeWord keyword none) s)
  change (E.after (takeWord keyword none >>= fun _ => next) s).children = top ++ s.children at htop
  refine ⟨top.reverse, more, by rw [htop, List.reverse_append], fun c hc => ?_, ?_⟩
  · exact (hcommon c (List.mem_reverse.1 hc)).2 rfl
  · change _ = Shape.starts
      (E.after (takeWord keyword none >>= fun _ => next) s).children.reverse at hmore
    rw [htop, after_takeWord, State.takeAs_children, List.reverse_append, List.reverse_cons,
      Shape.starts_append, Shape.starts_append, Shape.starts_token, List.append_assoc,
      List.append_cancel_left_eq, List.singleton_append] at hmore
    rw [← hmore, ← hmode]
    rfl

/-- **A declaration** behind its annotations is orderly where its words lead up to its keyword. -/
theorem orderly_declarationBody (hE : E.Ordered q) {keyword : Kind}
    (hkey : keyword ∈ declarationKeywords) (h : s.aborted = none → s.place.LeadsTo keyword)
    (hs : ∀ c ∈ s.children, c.isNode .metadata = true)
    (ht : (E.after (declarationBody keyword) s).Calm q) :
    (E.val (declarationBody keyword) s).introducer? = some keyword ∧
      Shape.Orderly q (E.val (declarationBody keyword) s)
        (E.after (declarationBody keyword) s).children.reverse := by
  obtain ⟨kind, _, next, hkind, hcurly, rfl, hnext, heq⟩ := declarationBody_eq hE hkey
  obtain ⟨hval, hafter⟩ := heq s
  rw [hval]
  rw [hafter] at ht ⊢
  refine ⟨hkind, ?_⟩
  have hisKeyword : keyword.isKeyword = true := by
    have hall : ∀ k ∈ declarationKeywords, k.isKeyword = true := by decide
    exact hall keyword hkey
  have ha : (E.after (modifiers keyword) s).aborted = none := (E.leads_after _ _).aborted ht.aborted
  obtain ⟨words, hwords, hlead, hclass⟩ := row_modifiers h ha
  obtain ⟨rest, more, hrest, hcommon, hstarts⟩ :=
    exists_rest hE hcurly (hnext true _) (runs_modifiers (E := E) hisKeyword h).2.1 ht
  rw [hrest, hwords, List.reverse_append, List.reverse_reverse]
  exact Shape.orderly_declared hkind (fun c hc => hs c (List.mem_reverse.1 hc)) hlead hclass
    hcommon hstarts

theorem orders_declarationBody (hE : E.Ordered q) {keyword : Kind}
    (hkey : keyword ∈ declarationKeywords) : E.Orders q false (declarationBody keyword) s := by
  simp only [declarationKeywords, List.mem_cons, List.not_mem_nil, or_false] at hkey
  rcases hkey with rfl | rfl | rfl | rfl | rfl | rfl
  · exact ⟨orders_modifiers _, orders_classBody hE, orders_pure _⟩
  · exact ⟨orders_modifiers _, orders_interfaceBody hE, orders_pure _⟩
  · exact ⟨orders_modifiers _, orders_variableBody (by decide), orders_pure _⟩
  · exact ⟨orders_modifiers _, orders_variableBody (by decide), orders_pure _⟩
  · exact ⟨orders_modifiers _, orders_functionBody hE, orders_pure _⟩
  · exact ⟨orders_modifiers _, orders_namespaceBody, orders_pure _⟩

/-- Of a node with a kind of its own it is said by itself what it is made of. -/
theorem orders_node_uncommon {body : Parser (Kind × α)}
    (hbody : E.Orders q false body (s.enter E.limits []))
    (h : (E.after body (s.enter E.limits [])).Calm q →
      Shape.Orderly q (E.val body (s.enter E.limits [])).1
        (E.after body (s.enter E.limits [])).children.reverse ∧
        (Shape.node (E.val body (s.enter E.limits [])).1 none
          (E.after body (s.enter E.limits [])).children.reverse).Common q)
    (hkind : (E.val body (s.enter E.limits [])).1.isCommon = false) : E.Orders q l (.node body) s :=
  ⟨fun hother => absurd hkind (by simp [hother]), fun _ => ⟨false, hbody, fun hcalm _ =>
    ⟨(h hcalm).1, fun _ => (h hcalm).2⟩⟩⟩

/-- A declaration is orderly where it was seen. -/
theorem orders_declaration (hE : E.Ordered q) {keyword : Kind}
    (hkey : keyword ∈ declarationKeywords)
    (h : s.aborted = none → s.place.LeadsTo keyword) : E.Orders q l (declaration keyword) s := by
  obtain ⟨kind, _, _, hkind, -, -, -, heq⟩ := declarationBody_eq hE hkey
  have hleads :
      (s.enter E.limits []).aborted = none → (s.enter E.limits []).place.LeadsTo keyword := by
    intro ha
    rcases s.enter_cases E.limits [] with ⟨hp, -, hna⟩ | ⟨hna, -⟩
    · rw [hp]
      exact h (by rwa [← hna])
    · exact absurd ha hna
  refine orders_node_uncommon ⟨orders_declarationBody hE hkey, orders_pure _⟩ (fun hcalm => ?_) ?_
  · obtain ⟨hintroducer, horderly⟩ := orderly_declarationBody hE hkey hleads
      (fun _ hc => absurd hc List.not_mem_nil) hcalm
    exact ⟨horderly, Shape.common_declared hintroducer⟩
  · rw [val_bind, (heq _).1]
    exact (Shape.of_introducer hkind).1

/-- What may follow annotations. -/
def annotatedRest : Parser (Kind × Unit) := do
  match ← nextDeclaration? with
  | some keyword => return (← declarationBody keyword, ())
  | none =>
    report .expectedDeclaration
    return (.error, ())

omit [Alphabet] in
theorem annotated_eq : annotated = .node (do
    metadataRun
    annotatedRest) := rfl

/-- Behind annotations stands a declaration; without one they make up an error. -/
theorem orderly_annotatedRest (hE : E.Ordered q)
    (hs : ∀ c ∈ s.children, c.isNode .metadata = true) :
    E.Orders q false annotatedRest s ∧ (E.val annotatedRest s).1.isCommon = false ∧
      ((E.after annotatedRest s).Calm q →
        Shape.Orderly q (E.val annotatedRest s).1 (E.after annotatedRest s).children.reverse ∧
        (Shape.node (E.val annotatedRest s).1 none
          (E.after annotatedRest s).children.reverse).Common q) := by
  rw [annotatedRest, orders_bind, val_bind, after_bind, after_nextDeclaration?]
  have hlooks : E.Orders q false nextDeclaration? s :=
    orders_of_onlyLooks (onlyLooks_declarationWord? _ _)
  cases hnext : E.val nextDeclaration? s with
  | some keyword =>
    obtain ⟨hkey, hleads⟩ := leadsTo_of_nextDeclaration? hnext
    obtain ⟨kind, _, _, hkind, -, -, -, heq⟩ := declarationBody_eq hE hkey
    refine ⟨⟨hlooks, orders_declarationBody hE hkey, orders_pure _⟩, ?_, fun hcalm => ?_⟩
    · rw [val_bind, (heq _).1]
      exact (Shape.of_introducer hkind).1
    · obtain ⟨hintroducer, horderly⟩ :=
        orderly_declarationBody (s := s.inMode .operator) hE hkey (fun _ => hleads) hs hcalm
      exact ⟨horderly, Shape.common_declared hintroducer⟩
  | none =>
    refine ⟨⟨hlooks, orders_report _, orders_pure _⟩, rfl, fun _ => ?_⟩
    rw [val_bind, val_pure, after_bind, after_pure, after_report, State.report_children,
      State.inMode_children]
    have hkids : ∀ c ∈ s.children.reverse, c.isNode .metadata = true :=
      fun c hc => hs c (List.mem_reverse.1 hc)
    refine ⟨orderly_error fun c hc => ?_, common_error fun _ => .inr hkids⟩
    have hmetadata := hkids c hc
    cases c with
    | token => cases hmetadata
    | node kind field kids =>
      obtain rfl : kind = .metadata := by simpa [Shape.isNode] using hmetadata
      exact ⟨rfl, rfl⟩

/-- Annotations with a declaration behind them, or with none. -/
theorem orders_annotated (hE : E.Ordered q) : E.Orders q l annotated s := by
  rw [annotated_eq]
  have hrun :=
    isNode_metadataRun (E := E) (s := s.enter E.limits []) fun _ hc => absurd hc List.not_mem_nil
  obtain ⟨hbody, hkind, hnode⟩ := orderly_annotatedRest hE hrun
  refine orders_node_uncommon (orders_bind.2 ⟨orders_metadataRun, hbody⟩) ?_ ?_
  · simpa only [val_bind, after_bind] using hnode
  · simpa only [val_bind] using hkind

/-- Variables or constants in the head of a `for`. -/
def headRest (isConst : Bool) : Parser (Kind × Unit) := do
  takeWord (if isConst then .constKw else .varKw) none
  declarators { noIn := true, noSequence := true }
  return (if isConst then .constantDecl else .variableDecl, ())

omit [Alphabet] in
theorem variableHead_eq : variableHead = .node (seesWord "const" >>= headRest) := rfl

/-- Variables in the head of a `for` have nothing in front of their keyword. -/
theorem orders_variableHead (hE : E.Ordered q) : E.Orders q l variableHead s := by
  rw [variableHead_eq]
  generalize hconst : E.val (seesWord "const") (s.enter E.limits []) = isConst
  let keyword : Kind := if isConst then .constKw else .varKw
  let kind : Kind := if isConst then .constantDecl else .variableDecl
  have hkind : kind.introducer? = some keyword := by
    cases isConst <;> rfl
  have hcurly : keyword ≠ .rCurly := by
    cases isConst <;> decide
  have hrest (l : Bool) (t : State) : E.Orders q l (takeWord keyword none >>= fun _ =>
      declarators { noIn := true, noSequence := true }) t :=
    ⟨orders_takeWord.2 fun _ => hcurly, orders_declarators _⟩
  refine orders_node_uncommon (orders_bind.2 ⟨orders_seesWord _, ?_⟩) (fun hcalm => ?_) ?_
  · rw [hconst]
    exact ⟨(hrest _ _).1, (hrest _ _).2, orders_pure _⟩
  · rw [after_bind, hconst] at hcalm ⊢
    rw [val_bind, hconst]
    refine ⟨?_, Shape.common_declared hkind⟩
    obtain ⟨rest, more, hkids, hcommon, hstarts⟩ := exists_rest hE hcurly (hrest true _)
      (s := E.after (seesWord "const") (s.enter E.limits [])) rfl hcalm
    change Shape.Orderly q kind (E.after (takeWord keyword none >>= fun _ =>
      declarators { noIn := true, noSequence := true }) _).children.reverse
    rw [hkids]
    have hnone : ∀ c ∈ ([] : List Shape), c.isNode .metadata = true :=
      fun _ h => absurd h List.not_mem_nil
    have hwords (line : Bool) : Shape.LeadOn line [] := trivial
    exact Shape.orderly_declared hkind hnone (hwords _) (fun _ _ h => absurd h List.not_mem_nil)
      hcommon hstarts
  · rw [val_bind, hconst]
    exact (Shape.of_introducer hkind).1

end Setting

end ActionScript
