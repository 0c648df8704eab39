import ActionScript.Grammar.Declarations
import ActionScript.Proofs.Safety.Expressions

/-!
# Declarations are safe

That a keyword is taken where its word stands is decided far ahead: the words in front of it are
looked through first and taken afterwards.  `Place.LeadsTo` is what looking finds and what taking
the words keeps up, word by word.

* `leadsTo_of_declarationWord?`: looking ahead finds only what is there.
* `sees_modifiers`: behind its modifiers the keyword of a declaration comes next.
* `safe_declaration`, `safe_annotated`: declarations are safe where they were seen.
-/

set_option autoImplicit false

namespace ActionScript

/-- Words that may stand on a line of their own in front of a declaration. -/
def Grammar.isAttributeWord (word : Text) : Bool :=
  classAttributes.any (fun w => word == w.toList) || propertyAttributes.any fun w =>
    word == w.toList

namespace Place

variable [Alphabet]

/-- The place so many tokens on, all read in operator mode, but not behind the end of the text. -/
def skip : Nat → Place → Place
  | 0, p => p
  | n + 1, p => if p.ahead = .eof then p else skip n (p.next .operator).2

theorem tokenAhead_eq (n : Nat) (p : Place) :
    State.tokenAhead n p = ((p.skip n).next .operator).1 := by
  induction n generalizing p with
  | zero => rfl
  | succ n ih =>
    simp only [State.tokenAhead, skip, next_operator_kind, beq_iff_eq]
    split
    · rfl
    · exact ih _

theorem skip_succ {n : Nat} {p : Place} (h : (p.skip n).ahead ≠ .eof) :
    p.skip (n + 1) = ((p.skip n).next .operator).2 := by
  induction n generalizing p with
  | zero => exact if_neg h
  | succ n ih =>
    have hne : p.ahead ≠ .eof := by
      intro he
      rw [skip, if_pos he] at h
      exact h he
    rw [skip, if_neg hne] at h ⊢
    rw [ih h, skip, if_neg hne]

/-- From the place on, words lead up to the one for a keyword.  Behind each that is no attribute the
next one stands on the same line. -/
inductive LeadsTo (keyword : Kind) : Place → Prop
  | here {p : Place} : (p.next .operator).1.IsWordFor keyword → LeadsTo keyword p
  | next {p : Place} : p.ahead = .name →
      (Grammar.isAttributeWord (p.next .operator).1.text = true ∨
        ((p.next .operator).2.next .operator).1.startsLine = false) →
      LeadsTo keyword (p.next .operator).2 → LeadsTo keyword p

theorem LeadsTo.ahead_eq {keyword : Kind} {p : Place} (h : p.LeadsTo keyword) :
    p.ahead = .name := by
  cases h with
  | here h => exact h.1
  | next h _ _ => exact h

end Place

namespace Setting

open ActionScript.Parser ActionScript.Grammar

variable [Alphabet] {E : Setting} {s : State}

/-! ## Looking ahead -/

omit [Alphabet] in
theorem onlyLooks_declarationWord? (limit i : Nat) : (declarationWord? limit i).OnlyLooks := by
  induction limit generalizing i with
  | zero => trivial
  | succ limit ih =>
    refine ⟨trivial, fun g => ?_⟩
    dsimp only
    split
    · trivial
    · split
      · trivial
      · trivial
      · trivial
      · trivial
      · exact ⟨trivial, fun _ => trivial⟩
      · exact ⟨trivial, fun _ => trivial⟩
      · split
        · exact ih _
        · refine ⟨trivial, fun next => ?_⟩
          dsimp only
          split
          · exact ih _
          · trivial

/-- The keywords that introduce a declaration. -/
def declarationKeywords : List Kind :=
  [.classKw, .interfaceKw, .varKw, .constKw, .functionKw, .namespaceKw]

omit [Alphabet] in
theorem isAttributeWord_of_isOneOf {g : Glimpse}
    (h : (g.isOneOf classAttributes || g.isOneOf propertyAttributes) = true) :
    isAttributeWord g.text = true := by
  simp only [Glimpse.isOneOf, ← Bool.and_or_distrib_left, Bool.and_eq_true] at h
  exact h.2

/-- **Looking ahead finds only what is there.** -/
theorem leadsTo_of_declarationWord? {limit i : Nat} {keyword : Kind}
    (h : E.val (declarationWord? limit i) s = some keyword) :
    keyword ∈ declarationKeywords ∧ (s.place.skip i).LeadsTo keyword := by
  induction limit generalizing i s with
  | zero => cases h
  | succ limit ih =>
    rw [declarationWord?, val_bind, val_ahead, after_ahead, Place.tokenAhead_eq, val_ite] at h
    split at h
    · cases h
    · rename_i hkind
      have hname : (s.place.skip i).ahead = .name := by simpa using hkind
      have hhere {k : Kind} (hk : k ∈ declarationKeywords)
          (hword : Kind.ofWord? ((s.place.skip i).next .operator).1.text = some k) :
          k ∈ declarationKeywords ∧ (s.place.skip i).LeadsTo k :=
        ⟨hk, .here (.of_ofWord hname hword)⟩
      have hskip : s.place.skip (i + 1) = ((s.place.skip i).next .operator).2 :=
        Place.skip_succ (by simp [hname])
      have hnext (hline : isAttributeWord ((s.place.skip i).next .operator).1.text = true ∨
            ((s.place.skip (i + 1)).next .operator).1.startsLine = false)
          (hrest : keyword ∈ declarationKeywords ∧ (s.place.skip (i + 1)).LeadsTo keyword) :
          keyword ∈ declarationKeywords ∧ (s.place.skip i).LeadsTo keyword := by
        rw [hskip] at hline hrest
        exact ⟨hrest.1, .next hname hline hrest.2⟩
      split at h
      · cases h
        exact hhere (by decide) ‹_›
      · cases h
        exact hhere (by decide) ‹_›
      · cases h
        exact hhere (by decide) ‹_›
      · cases h
        exact hhere (by decide) ‹_›
      · rw [val_bind, val_pure] at h
        split at h
        · cases h
        · cases h
          exact hhere (by decide) ‹_›
      · rw [val_bind, val_pure] at h
        split at h
        · cases h
          exact hhere (by decide) ‹_›
        · cases h
      · rw [val_ite] at h
        split at h
        · rename_i hattribute
          exact hnext (.inl (isAttributeWord_of_isOneOf hattribute))
            (ih (s := s.inMode .operator) h)
        · rw [val_bind, val_ahead, after_ahead, Place.tokenAhead_eq, val_ite] at h
          split at h
          · rename_i hline
            rw [Bool.and_eq_true, Bool.not_eq_true'] at hline
            exact hnext (.inr hline.2) (ih (s := s.inMode .operator) h)
          · cases h

theorem leadsTo_of_nextDeclaration? {keyword : Kind}
    (h : E.val nextDeclaration? s = some keyword) :
    keyword ∈ declarationKeywords ∧ s.place.LeadsTo keyword :=
  leadsTo_of_declarationWord? h

theorem after_nextDeclaration? : E.after nextDeclaration? s = s.inMode .operator :=
  ((onlyLooks_declarationWord? wordLimit 0).2 _).after_inMode

omit [Alphabet] in
theorem onlyLooks_behindArguments? (limit j depth : Nat) :
    (behindArguments? limit j depth).OnlyLooks := by
  induction limit generalizing j depth with
  | zero => trivial
  | succ limit ih =>
    refine ⟨trivial, fun g => ?_⟩
    dsimp only
    split
    · exact ih _ _
    · exact ih _ _
    · exact ih _ _
    · split
      · exact ⟨trivial, fun _ => trivial⟩
      · exact ih _ _
    · split
      · exact ⟨trivial, fun _ => trivial⟩
      · exact ih _ _
    · split
      · exact ⟨trivial, fun _ => trivial⟩
      · exact ih _ _
    · trivial
    · exact ih _ _

omit [Alphabet] in
theorem onlyLooks_behindMetadata? (i : Nat) : (behindMetadata? i).OnlyLooks := by
  refine ⟨trivial, fun first => ?_⟩
  dsimp only
  split
  · trivial
  · refine ⟨trivial, fun second => ?_⟩
    dsimp only
    split
    · trivial
    · refine ⟨trivial, fun third => ?_⟩
      dsimp only
      split
      · trivial
      · exact onlyLooks_behindArguments? _ _ _
      · trivial

omit [Alphabet] in
theorem onlyLooks_behindMetadataRun (limit i : Nat) : (behindMetadataRun limit i).OnlyLooks := by
  induction limit generalizing i with
  | zero => trivial
  | succ limit ih =>
    rw [behindMetadataRun]
    split
    · trivial
    · refine ⟨onlyLooks_behindMetadata? i, fun next => ?_⟩
      cases next with
      | none => trivial
      | some next => exact ih _

theorem after_behindMetadata? (i : Nat) : E.after (behindMetadata? i) s = s.inMode .operator :=
  ((onlyLooks_behindMetadata? i).2 _).after_inMode

/-- An annotation that is seen has its bracket. -/
theorem ahead_of_behindMetadata? (h : (E.val (behindMetadata? 0) s).isSome = true) :
    s.place.ahead = .lBrack := by
  rw [behindMetadata?, val_bind, val_ite] at h
  split at h
  · cases h
  · rename_i hfirst
    simpa [State.tokenAhead] using hfirst

/-- Annotations that are seen begin with one. -/
theorem behindMetadata?_of_sees (h : E.val seesAnnotatedDeclaration s = true) :
    (E.val (behindMetadata? 0) s).isSome = true := by
  cases hfirst : E.val (behindMetadata? 0) s with
  | some next => rfl
  | none =>
    have hrun : E.val (behindMetadataRun metadataLimit 0) s = 0 := by
      change E.val (behindMetadataRun (63 + 1) 0) s = 0
      rw [behindMetadataRun, val_ite, if_neg (by decide), val_bind, hfirst]
      rfl
    rw [seesAnnotatedDeclaration, val_bind, hrun] at h
    cases h

omit [Alphabet] in
theorem onlyLooks_seesAnnotatedDeclaration : seesAnnotatedDeclaration.OnlyLooks := by
  refine ⟨onlyLooks_behindMetadataRun _ _, fun i => ?_⟩
  dsimp only
  split
  · trivial
  · exact ⟨onlyLooks_declarationWord? _ _, fun _ => trivial⟩

/-! ## Annotations -/

/-- Where something can be seen behind the next token inside a new node, entering it has not stopped
the parse. -/
theorem place_enter_of_tokenAhead {children : List Shape}
    (h : (State.tokenAhead 1 (s.enter E.limits children).place).kind ≠ .eof) :
    (s.enter E.limits children).place = s.place := by
  rcases s.enter_cases E.limits children with ⟨hp, -⟩ | ⟨-, hp⟩
  · exact hp
  · have hne := ahead_ne_eof_of_tokenAhead h
    rw [hp] at hne
    exact absurd (Place.next_kind_of_rest_nil rfl .operator) hne

@[simp] theorem safe_metadataArgument? : E.Safe metadataArgument? s := by
  simp only [metadataArgument?, safe_bind, safe_look, val_look, after_look, safe_ite, safe_nodeOf,
    safe_ahead, val_ahead, after_ahead, safe_when, safe_name, safe_take, safe_assignment, safe_pure,
    glimpse_kind, Place.next_operator_kind, true_and, and_true, implies_true, Bool.and_eq_true,
    beq_iff_eq]
  rintro - ⟨hname, heq⟩
  have hne : (State.tokenAhead 1 ((s.inMode .operator).enter E.limits []).place).kind ≠ .eof := by
    simp [heq]
  have hplace := place_enter_of_tokenAhead hne
  have hahead : ((s.inMode .operator).enter E.limits []).place.ahead = .name := by
    rw [hplace]
    exact hname
  have hbehind := seesBehind_of_tokenAhead (P := (·.kind ≠ .eof)) hne hne
  exact (takes_name (s := ((s.inMode .operator).enter E.limits []).inMode .operator) hahead).sees
    hbehind

theorem moves_metadataArgument? (h : expressionFirst.contains s.place.ahead = true) :
    s.Moves (E.after metadataArgument? s) := by
  have hstops := operandStops_of_expressionFirst h
  have hne : s.place.ahead ≠ .eof := by
    intro he
    rw [he] at h
    exact absurd h (by decide)
  simp only [metadataArgument?, after_bind, val_look, after_look, glimpse_kind,
    Place.next_operator_kind, h, if_true, after_pure]
  refine State.moves_inMode.1 (moves_nodeOf (Place.rest_ne_nil_of_ahead hne) fun t hp _ => ?_)
  refine moves_bind_right ?_
  rw [after_ahead]
  by_cases hkey : (s.place.ahead == .name && (E.val (ahead 1) t).kind == .eq) = true
  · simp only [hkey]
    have hname : t.place.ahead = .name := by
      rw [hp]
      simp at hkey
      exact hkey.1
    exact moves_bind_left (moves_bind_left (moves_name hname))
  · simp only [hkey]
    exact moves_bind_right (moves_assignment (by rw [after_when]; simpa [hp] using hstops))

/-- An annotation is safe at its bracket. -/
theorem safe_metadata (h : s.HasToken) : E.Safe metadata s := by
  simp only [metadata, safe_bind, safe_nodeOf, safe_take, safe_name, safe_sees,
    val_sees, after_sees, safe_when, safe_label, after_nodeOf, State.endsInNode_close, true_and,
    and_true, beq_iff_eq]
  refine ⟨h.enter _ _, fun hparen => ?_, safe_expect (by decide)⟩
  refine safe_delimited ?_ ?_ (by decide) (fun _ => safe_metadataArgument?) ?_
  · exact (State.hasToken_of_kind hparen (by decide)).enter _ _
  · exact (State.finds_inMode hparen).enter_inMode _ _
  · exact fun t => moves_metadataArgument?

theorem moves_metadata (h : s.token.kind ≠ .eof) : s.Moves (E.after metadata s) :=
  moves_bind_left (moves_nodeOf_take h)

@[simp] theorem safe_metadataRun : E.Safe metadataRun s := by
  refine Safe.loop' fun t => ?_
  rw [runs_bind]
  refine ⟨(onlyLooks_behindMetadata? 0).safe, ?_⟩
  dsimp only
  rw [after_behindMetadata?, runs_ite]
  refine ⟨fun h => ?_, fun _ => by simp⟩
  have htoken : (t.inMode .operator).token.kind ≠ .eof := by simp [ahead_of_behindMetadata? h]
  refine ⟨⟨safe_metadata fun _ => htoken, trivial⟩, fun _ => ?_⟩
  exact State.moves_inMode.1 (moves_bind_left (moves_metadata htoken))

/-- Annotations move on where one is seen. -/
theorem moves_metadataRun (h : (E.val (behindMetadata? 0) s).isSome = true) :
    s.Moves (E.after metadataRun s) := by
  refine moves_loop ?_
  have htoken : (s.inMode .operator).token.kind ≠ .eof := by simp [ahead_of_behindMetadata? h]
  rw [after_bind, after_behindMetadata?, after_ite, if_pos h]
  exact State.moves_inMode.1 (moves_bind_left (moves_metadata htoken))

/-! ## Modifiers -/

/-- A word in front of a declaration is taken as what it is. -/
theorem safe_modifier {kind : Kind} (h : s.Sees (·.kind = .name)) :
    E.Safe (modifier kind (State.glimpse s.token)) s := by
  unfold modifier
  split
  · exact safe_wordLeaf fun ha => .of_ofWord (h ha) ‹_›
  · exact safe_leaf (h.mono fun _ ht => by simp [ht])

@[simp] theorem endsInNode_modifier (kind : Kind) (g : Glimpse) :
    (E.after (modifier kind g) s).EndsInNode := by
  unfold modifier
  split
  · exact endsInNode_wordLeaf _ _
  · exact endsInNode_leaf _

theorem takes_modifier (kind : Kind) (g : Glimpse) :
    s.Takes (E.after (modifier kind g) s) := by
  unfold modifier
  split
  · exact takes_wordLeaf _ _
  · exact takes_leaf _

theorem moves_modifier {kind : Kind} {g : Glimpse} (h : s.token.kind ≠ .eof) :
    s.Moves (E.after (modifier kind g) s) := by
  unfold modifier
  split
  · exact moves_wordLeaf h
  · exact moves_leaf h

/-- A word in front of a keyword leads up to it all the same once it is taken. -/
theorem leadsTo_of_takes {keyword : Kind} {t : State}
    (h : s.aborted = none → s.place.LeadsTo keyword)
    (hother : keyword.spells (s.place.next .operator).1.text = false)
    (htakes : (s.inMode .operator).Takes t) (ha : t.aborted = none) :
    t.place.LeadsTo keyword ∧ (isAttributeWord (s.place.next .operator).1.text = true ∨
      (t.place.next .operator).1.startsLine = false) := by
  obtain ⟨ha', hplace, -⟩ := htakes ha
  rw [hplace]
  cases h ha' with
  | here hword =>
    rw [hword.2.2] at hother
    cases hother
  | next _ hline hnext => exact ⟨hnext, hline⟩

/-- **The words in front of a declaration** are safe where they lead up to its keyword, and behind
them that comes next. -/
theorem runs_modifiers {keyword : Kind} (hkey : keyword.isKeyword = true)
    (h : s.aborted = none → s.place.LeadsTo keyword) :
    E.Runs (modifiers keyword) s fun _ t =>
      t.mode = .operator ∧ t.Sees (Token.IsWordFor keyword) := by
  refine Runs.loop (fun t => t.aborted = none → t.place.LeadsTo keyword) h fun t ht => ?_
  rw [runs_bind, runs_look, runs_ite]
  simp only [glimpse_kind, glimpse_text, Place.next_operator_kind, Bool.or_eq_true, bne_iff_ne,
    ne_eq, not_or, Classical.not_not, Bool.not_eq_true]
  refine ⟨fun hstops => ?_, ?_⟩
  · -- the words still lead up to the keyword, so what stops them is its word
    rw [runs_pure]
    refine ⟨fun h => (by cases h), fun _ => ⟨rfl, fun ha => ?_⟩⟩
    have hname := (ht ha).ahead_eq
    exact ⟨hname, hkey, hstops.resolve_left fun hne => hne hname⟩
  rintro ⟨hname, hother⟩
  have hne : t.place.ahead ≠ .eof := by simp [hname]
  have hmodifier (kind : Kind) :
      E.Runs (modifier kind (State.glimpse (t.place.next .operator).1)) (t.inMode .operator)
        fun _ u => (t.inMode .operator).Takes u ∧ t.Moves u ∧ u.EndsInNode :=
    ⟨safe_modifier (s := t.inMode .operator) (State.sees_inMode.2 fun _ => hname),
      takes_modifier _ _, moves_modifier (s := t.inMode .operator) hne, endsInNode_modifier _ _⟩
  have hreject (error : SyntaxError) :
      E.Runs (reject error) (t.inMode .operator)
        fun _ u => (t.inMode .operator).Takes u ∧ t.Moves u ∧ u.EndsInNode :=
    ⟨safe_reject _, takes_reject (s := t.inMode .operator) hne,
      moves_reject (s := t.inMode .operator) hne, endsInNode_reject _⟩
  rw [runs_bind]
  refine Runs.mono (P := fun _ u => (t.inMode .operator).Takes u ∧ t.Moves u ∧ u.EndsInNode) ?_ ?_
  · simp only [runs_ite]
    exact ⟨fun _ => ⟨fun _ => hmodifier _, fun _ => hreject _⟩,
      fun _ => ⟨fun _ => hreject _, fun _ => hmodifier _⟩⟩
  · rintro - u - ⟨htakes, hmoves, hends⟩
    refine ⟨⟨hends, trivial⟩, fun _ => ⟨?_, fun ha => ?_⟩, fun h => by cases h⟩
    · simpa [State.Moves] using hmoves
    · simpa using (leadsTo_of_takes ht hother htakes (by simpa using ha)).1

/-! ## The declarations -/

@[simp] theorem safe_memberBody (kind : Kind) : E.Safe (memberBody kind) s := by
  simp [memberBody]

/-- A clause is safe if what follows its keyword is. -/
theorem safe_clause? {keyword kind : Kind} {field : Field} {body : Parser Unit}
    (hkey : keyword.isKeyword = true) (hbody : ∀ t, E.Safe body t) :
    E.Safe (clause? keyword kind field body) s := by
  simp only [clause?, safe_bind, safe_look, val_look, after_look, safe_when, safe_nodeOf,
    safe_takeWord, safe_label, after_nodeOf, State.endsInNode_close, glimpse_kind, glimpse_text,
    Place.next_operator_kind, Bool.and_eq_true, beq_iff_eq, true_and, and_true]
  rintro ⟨hname, hspells⟩
  refine ⟨State.Sees.enter ?_ _ _, hbody _⟩
  exact State.sees_inMode.2 fun _ => ⟨hname, hkey, hspells⟩

/-- A class is safe behind its modifiers. -/
theorem safe_classBody (h : s.Sees (Token.IsWordFor .classKw)) : E.Safe classBody s := by
  refine ⟨h, safe_name _ _, safe_clause? rfl fun _ => safe_typeIn _, ?_⟩
  exact ⟨safe_clause? rfl fun _ => safe_typeList, safe_memberBody _⟩

theorem safe_interfaceBody (h : s.Sees (Token.IsWordFor .interfaceKw)) :
    E.Safe interfaceBody s :=
  ⟨h, safe_name _ _, safe_clause? rfl fun _ => safe_typeList, safe_memberBody _⟩

@[simp] theorem safe_accessor : E.Safe accessor s := by
  simp only [accessor, safe_bind, safe_ahead, after_ahead, safe_when, safe_look,
    val_look, after_look, safe_ite, safe_takeWord, State.inMode_inMode,
    State.inMode_place, true_and]
  refine fun _ => ⟨fun h => ?_, fun _ h => ?_⟩
  · exact State.sees_inMode.2 fun _ => .of_isWord h rfl rfl
  · exact State.sees_inMode.2 fun _ => .of_isWord h rfl rfl

theorem safe_functionBody (h : s.Sees (Token.IsWordFor .functionKw)) : E.Safe functionBody s := by
  simp only [functionBody, safe_bind, safe_takeWord, safe_accessor, safe_name, safe_signature,
    safe_sees, safe_ite, safe_block, safe_label, endsInNode_block, safe_semicolon, implies_true,
    and_true]
  exact h

/-- The step of a list of nodes with commas in between. -/
theorem runs_nodeIn_comma {kind : Kind} {body : Parser Unit} {field : Field}
    (h : E.Safe body (s.enter E.limits [])) :
    E.Runs (do
      nodeOf kind body
      label field
      eat .comma) s fun goesOn t => goesOn = true → s.Moves t := by
  simp only [runs_bind]
  refine ⟨safe_nodeOf.2 h, (makes_nodeOf kind body).endsInNode, ?_⟩
  exact runs_eat_comma ((E.leads_after (nodeOf kind body) s).trans (.labelLast _ _))

@[simp] theorem safe_declarators (r : Restrictions) : E.Safe (declarators r) s := by
  have hvalue (t : State) : E.Safe (callIn .value (.expression .assignment r)) t :=
    safe_callIn.2 trivial
  refine Safe.loop' fun t => runs_nodeIn_comma ?_
  simp only [safe_bind, safe_name, safe_typeAscription?, true_and]
  exact safe_defaultValue hvalue

theorem safe_variableBody {keyword : Kind} (h : s.Sees (Token.IsWordFor keyword)) :
    E.Safe (variableBody keyword) s := ⟨h, safe_declarators _, safe_semicolon⟩

theorem safe_namespaceBody (h : s.Sees (Token.IsWordFor .namespaceKw)) :
    E.Safe namespaceBody s := by
  simp only [namespaceBody, safe_bind, safe_takeWord, safe_name, safe_sees, val_sees, after_sees,
    safe_when, safe_take, safe_assignment, safe_semicolon, and_true, true_and, beq_iff_eq]
  exact ⟨h, fun heq => State.hasToken_of_kind heq (by decide)⟩

omit [Alphabet] in
theorem isKeyword_of_declarationKeywords {k : Kind} (h : k ∈ declarationKeywords) :
    k.isKeyword = true := by
  simp only [declarationKeywords, List.mem_cons, List.not_mem_nil, or_false] at h
  rcases h with rfl | rfl | rfl | rfl | rfl | rfl <;> rfl

/-- A declaration is safe where words lead up to its keyword. -/
theorem safe_declarationBody {keyword : Kind} (hkey : keyword ∈ declarationKeywords)
    (h : s.aborted = none → s.place.LeadsTo keyword) : E.Safe (declarationBody keyword) s := by
  have hword := isKeyword_of_declarationKeywords hkey
  obtain ⟨hsafe, -, hsees⟩ := runs_modifiers (E := E) hword h
  refine ⟨hsafe, ?_⟩
  simp only [declarationKeywords, List.mem_cons, List.not_mem_nil, or_false] at hkey
  rcases hkey with rfl | rfl | rfl | rfl | rfl | rfl
  · exact ⟨safe_classBody hsees, trivial⟩
  · exact ⟨safe_interfaceBody hsees, trivial⟩
  · exact ⟨safe_variableBody hsees, trivial⟩
  · exact ⟨safe_variableBody hsees, trivial⟩
  · exact ⟨safe_functionBody hsees, trivial⟩
  · exact ⟨safe_namespaceBody hsees, trivial⟩

/-- A declaration moves on: a word comes next, and either it is a modifier or the keyword. -/
theorem moves_declarationBody {keyword : Kind} (hkey : keyword ∈ declarationKeywords)
    (h : s.place.LeadsTo keyword) : s.Moves (E.after (declarationBody keyword) s) := by
  have hword := isKeyword_of_declarationKeywords hkey
  obtain ⟨-, hmode, -⟩ := runs_modifiers (E := E) hword fun _ => h
  have hlead := E.leads_after (modifiers keyword) s
  rcases Nat.lt_or_ge s.place.offset (E.after (modifiers keyword) s).place.offset with hlt | hge
  · exact moves_bind_left hlt
  · have htoken : (E.after (modifiers keyword) s).token.kind ≠ .eof := by
      rw [State.token, hmode, hlead.place.eq_of_offset_le hge, Place.next_operator_kind, h.ahead_eq]
      decide
    have htake (k : Kind) (field : Option Field) := State.moves_takeAs E.limits k field htoken
    refine moves_bind_right ?_
    simp only [declarationKeywords, List.mem_cons, List.not_mem_nil, or_false] at hkey
    rcases hkey with rfl | rfl | rfl | rfl | rfl | rfl
    · exact moves_bind_left (moves_bind_left (htake _ _))
    · exact moves_bind_left (moves_bind_left (htake _ _))
    · exact moves_bind_left (moves_bind_left (htake _ _))
    · exact moves_bind_left (moves_bind_left (htake _ _))
    · exact moves_bind_left (moves_bind_left (htake _ _))
    · exact moves_bind_left (moves_bind_left (htake _ _))

/-- A declaration is safe where it was seen. -/
theorem safe_declaration {keyword : Kind} (hkey : keyword ∈ declarationKeywords)
    (h : s.place.LeadsTo keyword) : E.Safe (declaration keyword) s := by
  refine ⟨safe_declarationBody hkey fun ha => ?_, trivial⟩
  rcases s.enter_cases E.limits [] with ⟨hp, -⟩ | ⟨hna, -⟩
  · rwa [hp]
  · exact absurd ha hna

theorem makes_declaration (keyword : Kind) : s.Makes (E.after (declaration keyword) s) :=
  makes_node _

theorem moves_declaration {keyword : Kind} (hkey : keyword ∈ declarationKeywords)
    (h : s.place.LeadsTo keyword) : s.Moves (E.after (declaration keyword) s) := by
  have hrest : s.place.rest ≠ [] := Place.rest_ne_nil_of_ahead (by simp [h.ahead_eq])
  exact moves_node hrest fun t hp _ => moves_bind_left (moves_declarationBody hkey (hp ▸ h))

@[simp] theorem safe_annotated : E.Safe annotated s := by
  refine ⟨safe_metadataRun, (onlyLooks_declarationWord? _ _).safe, ?_⟩
  generalize E.after metadataRun (s.enter E.limits []) = t
  cases hnext : E.val nextDeclaration? t with
  | none => exact ⟨trivial, trivial⟩
  | some keyword =>
    obtain ⟨hkey, hleads⟩ := leadsTo_of_nextDeclaration? hnext
    refine ⟨safe_declarationBody hkey fun _ => ?_, trivial⟩
    rw [after_nextDeclaration?]
    exact hleads

theorem makes_annotated : s.Makes (E.after annotated s) := makes_node _

/-- Annotations with a declaration behind them move on. -/
theorem moves_annotated (h : E.val seesAnnotatedDeclaration s = true) :
    s.Moves (E.after annotated s) := by
  have hfirst := behindMetadata?_of_sees h
  have hrest : s.place.rest ≠ [] :=
    Place.rest_ne_nil_of_ahead (by simp [ahead_of_behindMetadata? hfirst])
  refine moves_node hrest fun t hp _ => moves_bind_left (moves_metadataRun ?_)
  rwa [(onlyLooks_behindMetadata? 0).val_eq hp]

/-- Variables in the head of a `for` are safe at their keyword. -/
theorem safe_variableHead
    (h : (s.inMode .operator).Sees fun t => t.IsWordFor .varKw ∨ t.IsWordFor .constKw) :
    E.Safe variableHead s := by
  simp only [variableHead, safe_node, safe_bind, safe_seesWord, val_seesWord, after_seesWord,
    safe_takeWord, safe_declarators, safe_pure, true_and, and_true]
  have hsees := h.enter_inMode E.limits []
  intro ha
  have hword := hsees ha
  rw [State.inMode_token] at hword ⊢
  split
  · rename_i hconst
    exact .of_isWord hconst rfl rfl
  · rename_i hconst
    rcases hword with hvar | hword
    · exact hvar
    · refine absurd (Glimpse.isWord_iff.2 ⟨hword.1, ?_⟩) hconst
      obtain ⟨w, hw, htext⟩ := Kind.eq_of_spells hword.2.2
      cases hw
      exact htext

theorem makes_variableHead : s.Makes (E.after variableHead s) := makes_node _

/-! ## Directives -/

theorem safe_packageDeclaration (h : s.Sees (Token.IsWordFor .packageKw)) :
    E.Safe packageDeclaration s := by
  simp only [packageDeclaration, safe_nodeOf, safe_bind, safe_takeWord, safe_sees, safe_when,
    safe_qualifiedName, safe_block, safe_label, endsInNode_block, implies_true, and_true]
  exact h.enter _ _

theorem safe_importStatement (h : s.Sees (Token.IsWordFor .importKw)) :
    E.Safe importStatement s := by
  simp only [importStatement, safe_nodeOf, safe_bind, safe_takeWord, safe_qualifiedName,
    safe_semicolon, and_true]
  exact h.enter _ _

theorem safe_includeDirective (h : s.Sees (Token.IsWordFor .includeKw)) :
    E.Safe includeDirective s := by
  simp only [includeDirective, safe_nodeOf, safe_bind, safe_takeWord, safe_sees,
    val_sees, after_sees, safe_ite, safe_missing, safe_label, after_ite, State.endsInNode_ite,
    endsInNode_leaf, endsInNode_missing, safe_semicolon, implies_true, true_and,
    and_true, beq_iff_eq]
  exact ⟨h.enter _ _, fun hstring => safe_leaf (State.hasToken_of_kind hstring (by decide))⟩

/-- `use namespace` is safe where both words stand. -/
theorem safe_useNamespaceDirective (h : s.Sees (Token.IsWordFor .useKw))
    (hbehind : s.SeesBehind (Token.IsWordFor .namespaceKw)) : E.Safe useNamespaceDirective s := by
  simp only [useNamespaceDirective, safe_nodeOf, safe_bind, safe_takeWord, safe_semicolon, and_true]
  refine ⟨h.enter _ _, (State.takes_takeAs _ _ _ _).sees (hbehind.enter _ _), ?_⟩
  refine Safe.loop' fun t => ?_
  rw [runs_bind]
  exact (safe_name _ _).runs fun _ u hu => runs_eat_comma hu

end Setting

end ActionScript
