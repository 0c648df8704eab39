import ActionScript.Proofs.Offsets

/-!
# The tokens of literals

A string or a regular expression in a tree is one token, and it was read as code, so it is the
literal that the reader of tokens makes of the text.

* `Code.lexeme_literal`, `Lexeme.read_literal`: where such tokens are read.
* `Shape.Quoted`: the node of a literal has such a token as its only child.
* `Setting.quotes_atDepth`, `State.quoted_run`: **all nodes are so**, at every depth.
* `quoted_of_parseWithin`: the text of a literal in a tree is that of a token.
-/

set_option autoImplicit false

namespace ActionScript

open ActionScript.Parser ActionScript.Grammar

/-! ## Where the tokens are read -/

namespace Code

variable {mode : Mode} {cs : Text}

theorem operator_kind_isSome {c : Char} {f : Family} (h : familyIn? mode c = some f) (cs : Text) :
    (operator f c cs).kind.spelling.isSome = true := by
  have hspelled := familyIn?_isSpelled h
  rw [Family.isSpelled, List.all_eq_true] at hspelled
  obtain ⟨⟨more, kind⟩, hmem, hkind⟩ := List.mem_map.1
    (show (operator f c cs).kind ∈ (([], f.single) :: f.longer).map
      Prod.snd from operator_kind_mem f c cs)
  have hspells := (Bool.and_eq_true_iff.1 (hspelled _ hmem)).2
  rw [← hkind, Option.isSome_iff_exists]
  obtain ⟨w, hw, -⟩ := Kind.eq_of_spells hspells
  exact ⟨w, hw⟩

/-- **A string and a regular expression are read as such**: at their first character, and the latter
only in front of an operand. -/
theorem lexeme_literal [Alphabet]
    (h : (lexeme mode cs).kind = .string ∨ (lexeme mode cs).kind = .regex) :
    (∃ quote ds, cs = quote :: ds ∧ (quote = '"' ∨ quote = '\'') ∧
      lexeme mode cs = Quotation.lexeme quote ds) ∨
    mode = .exprStart ∧ ∃ ds, cs = '/' :: ds ∧ lexeme mode cs = Pattern.lexeme ds := by
  cases cs with
  | nil => rcases h with h | h <;> cases h
  | cons c ds =>
    rw [lexeme] at h ⊢
    split at h
    · rcases h with h | h <;> cases h
    · split at h
      · rename_i hdigit hquote
        rw [if_neg hdigit, if_pos hquote]
        exact .inl ⟨c, ds, rfl, by simpa using hquote, rfl⟩
      · split at h
        · rename_i hdigit hquote hslash
          rw [if_neg hdigit, if_neg hquote, if_pos hslash]
          rw [Bool.and_eq_true, beq_iff_eq, beq_iff_eq] at hslash
          exact .inr ⟨hslash.1, ds, by rw [hslash.2], rfl⟩
        · split at h
          · rcases h with h | h <;> cases h
          · split at h
            · rename_i f hf
              have hsome := operator_kind_isSome hf ds
              rcases h with h | h <;> rw [h] at hsome <;> cases hsome
            · split at h
              · unfold word at h
                dsimp only at h
                split at h <;> rcases h with h | h <;> cases h
              · rcases h with h | h <;> cases h

end Code

/-- Strings and regular expressions are so in every mode that reads code. -/
theorem Lexeme.read_literal [Alphabet] {mode : Mode} (hcode : mode.isCode = true) {cs : Text}
    (h : (read mode cs).kind = .string ∨ (read mode cs).kind = .regex) :
    (∃ quote ds, cs = quote :: ds ∧ (quote = '"' ∨ quote = '\'') ∧
      read mode cs = Quotation.lexeme quote ds) ∨
    mode = .exprStart ∧ ∃ ds, cs = '/' :: ds ∧ read mode cs = Pattern.lexeme ds := by
  cases mode <;> first | exact Code.lexeme_literal h | cases hcode

/-! ## Nodes of one token -/

namespace Kind

/-- The kind of the token that is the whole of a literal. -/
def literalToken? : Kind → Option Kind
  | .stringLiteral => some .string
  | .regexLiteral => some .regex
  | _ => none

/-- The kinds of such literals. -/
def quoted : List Kind := [.stringLiteral, .regexLiteral]

theorem literalToken?_eq_none {k : Kind} (h : k ∉ quoted) : k.literalToken? = none := by
  unfold literalToken?
  split <;> first | rfl | exact absurd (by decide) h

end Kind

instance : Kind.Special Kind.quoted := ⟨by decide⟩

namespace Shape

/-- The only child of such a literal is the token of its kind, read as code. -/
def Quoted [Alphabet] (kind : Kind) (children : List Shape) : Prop :=
  ∀ k ∈ kind.literalToken?, ∃ (q : Place) (mode : Mode), mode.isCode = true ∧
    (q.next mode).1.kind = k ∧
    children = [.token k none (q.next mode).1.leading (q.next mode).1.text (q.next mode).1.trailing]

theorem quoted_of_not_mem [Alphabet] (kind : Kind) (children : List Shape)
    (h : kind ∉ Kind.quoted) :
    Quoted kind children := by
  intro k hk
  rw [Kind.literalToken?_eq_none h] at hk
  cases hk

end Shape

/-- Inside a node that does not stop the parse the mode is the same. -/
theorem State.enter_mode {s : State} {limits : Limits} {children : List Shape}
    (h : (s.enter limits children).aborted = none) : (s.enter limits children).mode = s.mode := by
  rcases s.enter_cases limits children with ⟨-, hm, -⟩ | ⟨hna, -⟩
  · exact hm
  · exact absurd h hna

variable [Alphabet]

namespace Setting

variable {E : Setting} {s : State}

/-- A leaf keeps the condition if the next token is of its kind, and seen as code. -/
theorem keeps_quotedLeaf {kind : Kind} (h : s.aborted = none → s.mode.isCode = true ∧
    ∀ k ∈ kind.literalToken?, s.token.kind = k) : E.Keeps Shape.Quoted False (leaf kind) s := by
  rw [leaf]
  refine .nodeOf (fun hs _ => hs.takeAs _ _ _) fun htame k hk => ?_
  rw [after_take] at htame ⊢
  have hinner := (State.Leads.takeAs _ E.limits _ none).aborted htame.aborted
  have houter := (State.Leads.enter s E.limits []).aborted hinner
  obtain ⟨hcode, hkind⟩ := h houter
  refine ⟨s.place, s.mode, hcode, hkind k hk, ?_⟩
  rw [State.takeAs_children, State.enter_children, State.enter_token hinner, ← hkind k hk]
  rfl

namespace Quotes

variable (hE : E.Retains Shape.Quoted False)
include hE

theorem keeps_quoted {α : Type} {p : Parser α} (hp : p.Avoids Kind.quoted True True) :
    E.Keeps Shape.Quoted False p s := keeps_of_avoids Shape.quoted_of_not_mem hE hp

theorem keeps_property? : E.Keeps Shape.Quoted False property? s := by
  rw [property?]
  refine .bind (fun hs _ => hs) ?_
  rw [val_peek, after_peek]
  split
  · refine .bind
      (.nodeOf (.bind (keeps_quotedLeaf fun ha => ⟨?_, ?_⟩) (keeps_quoted hE (by simp)))
        fun _ => ?_)
      fun hs _ => hs
    · rw [State.enter_mode ha]
      rfl
    · rw [State.enter_token ha]
      intro k hk
      split at hk
      · cases hk
      · rename_i hstring
        cases hk
        exact hstring
      · cases hk
    · exact Shape.quoted_of_not_mem _ _ (by decide)
  · exact fun hs _ => hs

theorem keeps_objectLiteral : E.Keeps Shape.Quoted False objectLiteral s := by
  refine .nodeOf ?_ fun _ => Shape.quoted_of_not_mem _ _ (by decide)
  refine .bind (fun hs _ => hs)
    (.bind (fun hs _ => hs.takeAs _ _ _) (.bind (.loop fun t => ?_) (keeps_quoted hE (by simp))))
  refine .bind (keeps_quoted hE (by simp)) ?_
  split
  · exact keeps_quoted hE (by simp)
  · split
    · exact keeps_quoted hE (by simp)
    · exact .bind (keeps_property? hE) (keeps_quoted hE (by simp))

theorem keeps_operand : E.Keeps Shape.Quoted False operand s := by
  rw [operand]
  refine .bind (fun hs _ => hs) ?_
  split
  case h_2 hkind => exact keeps_quotedLeaf fun _ => ⟨rfl, fun k hk => by cases hk; exact hkind⟩
  case h_3 hkind => exact keeps_quotedLeaf fun _ => ⟨rfl, fun k hk => by cases hk; exact hkind⟩
  case h_7 => exact keeps_objectLiteral hE
  all_goals exact keeps_quoted hE (by simp +decide)

theorem keeps_constructed (c : Bool) :
    E.Keeps Shape.Quoted False (if c then call .construction else operand) s := by
  split
  · exact keeps_quoted hE (by simp)
  · exact keeps_operand hE

theorem keeps_constructionRule : E.Keeps Shape.Quoted False constructionRule s := by
  have hkind : constructionRule.Closes fun kind => kind ∉ Kind.quoted := by
    simp +decide [constructionRule]
  rw [constructionRule] at hkind ⊢
  refine .node ?_ fun _ _ => Shape.quoted_of_not_mem _ _ (hkind.val E _)
  refine .bind (fun hs _ => hs.takeAs _ _ _) (.bind (fun hs _ => hs) ?_)
  split
  · exact keeps_quoted hE (by simp)
  · exact .bind (keeps_constructed hE _) (keeps_quoted hE (by simp +decide))

theorem keeps_unaryRule : E.Keeps Shape.Quoted False unaryRule s := by
  refine .bind (fun hs _ => hs) ?_
  split
  · exact .bind (fun hs _ => hs)
      (.bind (keeps_constructed hE _) (keeps_quoted hE (by simp +decide)))
  · exact keeps_quoted hE (by simp +decide [takeOperator, Kind.ite_mem])

theorem keeps_includeDirective : E.Keeps Shape.Quoted False includeDirective s := by
  refine .nodeOf ?_ fun _ => Shape.quoted_of_not_mem _ _ (by decide)
  refine .bind (fun hs _ => hs.takeAs _ _ _)
    (.bind (fun hs _ => hs) (.bind ?_ (keeps_quoted hE (by simp))))
  rw [val_sees, after_sees]
  split
  · rename_i hfound
    exact keeps_quotedLeaf fun _ => ⟨rfl, fun k hk => by cases hk; exact eq_of_beq hfound⟩
  · exact keeps_quoted hE (by simp)

theorem keeps_wordStatement (g : Glimpse) : E.Keeps Shape.Quoted False (wordStatement g) s := by
  unfold wordStatement
  split
  case h_13 => exact keeps_includeDirective hE
  all_goals exact keeps_quoted hE (by simp +decide)

theorem keeps_statementRule : E.Keeps Shape.Quoted False statementRule s := by
  refine .bind (fun hs _ => hs) ?_
  split
  case h_4 => exact keeps_wordStatement hE _
  all_goals exact keeps_quoted hE (by simp +decide)

end Quotes

/-- **The literals are such tokens**, at every depth. -/
theorem quotes_atDepth (limits : Limits) (depth : Nat) :
    (atDepth limits depth).Retains Shape.Quoted False := by
  induction depth with
  | zero => exact retains_zero Shape.quoted_of_not_mem limits
  | succ depth ih =>
    intro rule s
    have hrule (h : (atDepth limits depth).Keeps Shape.Quoted False (Grammar.rule rule) s) :
        (atDepth limits (depth + 1)).Keeps Shape.Quoted False (.call rule) s := h
    refine hrule ?_
    cases rule with
    | statement => exact Quotes.keeps_statementRule ih
    | expression min r => exact Quotes.keeps_quoted ih (avoids_expressionRule min r)
    | unary => exact Quotes.keeps_unaryRule ih
    | construction => exact Quotes.keeps_constructionRule ih
    | type => exact Quotes.keeps_quoted ih avoids_typeRule
    | element => exact Quotes.keeps_quoted ih (avoids_elementRule (by decide) trivial)

end Setting

/-- The literals of a parse are such tokens. -/
theorem State.quoted_run {limits : Limits} {text : Text}
    (ha : (State.run limits text).aborted = none) : (State.run limits text).Every Shape.Quoted := by
  have hkeeps : (Setting.atDepth limits limits.maxDepth).Keeps Shape.Quoted False sourceFile
      (State.start text) :=
    Setting.Quotes.keeps_quoted (Setting.quotes_atDepth limits _) (by simp +decide [sourceFile])
  exact hkeeps (fun c hc => (by cases hc)) ⟨ha, fun h => h.elim⟩

/-! ## Every parse -/

/-- **The text of a literal in a tree is that of a token** of its kind, read as code. -/
theorem quoted_of_parseWithin {limits : Limits} {text : Text} {p : Parse}
    (h : parseWithin limits text = .ok p)
    {n : Tree.Node} (hn : n ∈ p.tree.root.descendants) {k : Kind}
    (hk : n.kind.literalToken? = some k) :
    ∃ (q : Place) (mode : Mode), mode.isCode = true ∧ (q.next mode).1.kind = k ∧
      p.tree.textOf n = (q.next mode).1.text := by
  obtain ⟨before, behind, start, kids, htokens, -, -, hchildren, hspan, -, -, hevery⟩ :=
    liesIn_of_every h (State.quoted_run (aborted_of_parseWithin h)) n hn
  obtain ⟨q, mode, hcode, hkind, rfl⟩ := (Shape.every_node.1 hevery).1 k hk
  refine ⟨q, mode, hcode, hkind, ?_⟩
  obtain ⟨⟨-, -, -, htext, -, -⟩, -⟩ :=
    start.shows_cluster k none (q.next mode).1.leading (q.next mode).1.text
    (q.next mode).1.trailing
  simp only [Progress.layAll, Progress.lay] at hchildren hspan
  generalize (start.cluster k none (q.next mode).1.leading (q.next mode).1.text
    (q.next mode).1.trailing).1 = c at htext hchildren hspan
  have hmem : n.token 0 c ∈ p.tree.tokens := by
    have hown : n.token 0 c ∈ n.tokens := by
      simp [Tree.Node.tokens, hchildren, Tree.Node.tokensFrom, Tree.Node.tokensOf,
        Tree.Node.clusterTokens]
    rw [Tree.tokens, htokens]
    simp [hown]
  have hslice := Tree.slice_span h hmem
  rw [Tree.textOf, hspan, ← htext]
  rw [hchildren]
  exact hslice

end ActionScript
