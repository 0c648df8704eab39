import Mathlib.Data.List.Forall2
import ActionScript.Proofs.Setting

/-!
# What a safe run takes

A safe run takes tokens as they are read one after the other from its place on, and puts each into
the children under its own kind, or under the keyword that it is the word for.  It keeps every
requirement, and none of its repetitions stalls.

* `Place.read`: reading without going back, in one mode for each token.
* `State.Consumes`: what a safe run does, stated for one run and closed under running on.
* `Setting.consumes_after`: **every safe run does that**, by one induction over parsers.
-/

set_option autoImplicit false

namespace ActionScript

theorem exists_rel_of_mem {α β : Type} {R : α → β → Prop} {as : List α} {bs : List β}
    (h : List.Forall₂ R as bs) {b : β} (hb : b ∈ bs) : ∃ a ∈ as, R a b := by
  induction h with
  | nil => cases hb
  | cons hab _ ih =>
    cases hb with
    | head => exact ⟨_, List.mem_cons_self, hab⟩
    | tail _ hb =>
      obtain ⟨a, ha, hr⟩ := ih hb
      exact ⟨a, List.mem_cons_of_mem _ ha, hr⟩

/-! ## Reading on -/

namespace Place

variable [Alphabet]

/-- Reads tokens one after the other, each in its own mode. -/
def read : Place → List Mode → List Token × Place
  | p, [] => ([], p)
  | p, mode :: modes =>
    let (token, behind) := p.next mode
    let (tokens, last) := behind.read modes
    (token :: tokens, last)

@[simp] theorem read_nil (p : Place) : p.read [] = ([], p) := rfl

@[simp] theorem read_cons (p : Place) (mode : Mode) (modes : List Mode) :
    p.read (mode :: modes) =
      ((p.next mode).1 :: ((p.next mode).2.read modes).1, ((p.next mode).2.read modes).2) := rfl

theorem read_append (p : Place) (ms ns : List Mode) :
    p.read (ms ++ ns) =
      ((p.read ms).1 ++ ((p.read ms).2.read ns).1, ((p.read ms).2.read ns).2) := by
  induction ms generalizing p with
  | nil => rfl
  | cons m ms ih => simp [ih]

end Place

/-! ## Tokens of shapes -/

namespace Shape

mutual

/-- The tokens of a shape in source order. -/
def tokens : Shape → List Shape
  | .token kind field leading text trailing => [.token kind field leading text trailing]
  | .node _ _ children => tokensAll children

/-- The tokens of several shapes in a row. -/
def tokensAll : List Shape → List Shape
  | [] => []
  | s :: ss => s.tokens ++ tokensAll ss

end

@[simp] theorem tokensAll_nil : tokensAll [] = [] := by
  rw [tokensAll]

@[simp] theorem tokensAll_cons (s : Shape) (ss : List Shape) :
    tokensAll (s :: ss) = s.tokens ++ tokensAll ss := by
  rw [tokensAll]

@[simp] theorem tokens_token (kind : Kind) (field : Option Field) (leading : List Trivia)
    (text : Text) (trailing : List Trivia) :
    (Shape.token kind field leading text trailing).tokens =
      [.token kind field leading text trailing] := by
  rw [tokens]

@[simp] theorem tokens_node (kind : Kind) (field : Option Field) (children : List Shape) :
    (Shape.node kind field children).tokens = tokensAll children := by
  rw [tokens]

@[simp] theorem tokensAll_append (ss ts : List Shape) :
    tokensAll (ss ++ ts) = tokensAll ss ++ tokensAll ts := by
  induction ss with
  | nil => simp
  | cons s ss ih => simp [ih]

/-- A shape is what a tree keeps of a token: its text with the pieces around it, under its own kind
or that of the keyword it is the word for. -/
def Keeps (t : Token) : Shape → Prop
  | .token kind _ leading text trailing =>
    leading = t.leading ∧ text = t.text ∧ trailing = t.trailing ∧
      (kind = t.kind ∨ t.IsWordFor kind)
  | .node .. => False

end Shape

/-! ## Runs -/

variable [Alphabet]

namespace State

/-- From `s` to `t`, tokens are taken as they are read one after the other, none of them at the end
of the text, and the flaws of these are reported. -/
def Reads (s t : State) : Prop :=
  ∃ (modes : List Mode) (taken : List Shape),
    t.place = (s.place.read modes).2 ∧
    Shape.tokensAll t.children.reverse = Shape.tokensAll s.children.reverse ++ taken ∧
    List.Forall₂ Shape.Keeps (s.place.read modes).1 taken ∧
    (∀ token ∈ (s.place.read modes).1, token.kind ≠ .eof) ∧
    t.tokenReports = s.tokenReports ++ (s.place.read modes).1.filterMap Token.report?

/-- What a safe run from `s` to `t` does.  Once a parse has been stopped, only that it does not
stall matters, and that it keeps the requirements if it was a deadline that stopped it. -/
structure Consumes (s t : State) : Prop where
  stalled : t.stalled = s.stalled
  aborted : t.aborted = none → s.aborted = none
  outOfNodes : s.OutOfNodes → t.OutOfNodes
  broken : ¬t.OutOfNodes → t.broken = s.broken
  reads : t.aborted = none → s.Reads t

theorem Reads.of_eq {s t : State} (hp : t.place = s.place)
    (hc : Shape.tokensAll t.children.reverse = Shape.tokensAll s.children.reverse)
    (hr : t.tokenReports = s.tokenReports) : s.Reads t :=
  ⟨[], [], hp, by simp [hc], .nil, by simp, by simp [hr]⟩

theorem Reads.trans {s t u : State} (h₁ : s.Reads t) (h₂ : t.Reads u) : s.Reads u := by
  obtain ⟨ms, xs, hp, hc, hk, he, hr⟩ := h₁
  obtain ⟨ns, ys, hp', hc', hk', he', hr'⟩ := h₂
  rw [hp] at hp' hk' he' hr'
  refine ⟨ms ++ ns, xs ++ ys, ?_, ?_, ?_, ?_, ?_⟩
  · rw [Place.read_append, hp']
  · rw [hc', hc, List.append_assoc]
  · rw [Place.read_append]
    exact List.rel_append hk hk'
  · intro token hmem
    rw [Place.read_append, List.mem_append] at hmem
    exact hmem.elim (he token) (he' token)
  · rw [hr', hr, Place.read_append, List.filterMap_append, List.append_assoc]

namespace Consumes

theorem of_eq {s t : State} (hs : t.stalled = s.stalled) (ha : t.aborted = s.aborted)
    (hb : t.broken = s.broken) (hp : t.place = s.place)
    (hc : Shape.tokensAll t.children.reverse = Shape.tokensAll s.children.reverse)
    (hr : t.tokenReports = s.tokenReports) : s.Consumes t :=
  ⟨hs, fun h => ha ▸ h, (outOfNodes_congr ha).2, fun _ => hb, fun _ => .of_eq hp hc hr⟩

theorem refl (s : State) : s.Consumes s := of_eq rfl rfl rfl rfl rfl rfl

theorem trans {s t u : State} (h₁ : s.Consumes t) (h₂ : t.Consumes u) : s.Consumes u where
  stalled := h₂.stalled.trans h₁.stalled
  aborted h := h₁.aborted (h₂.aborted h)
  outOfNodes h := h₂.outOfNodes (h₁.outOfNodes h)
  broken h := (h₂.broken h).trans (h₁.broken fun hs => h (h₂.outOfNodes hs))
  reads h := (h₁.reads (h₂.aborted h)).trans (h₂.reads h)

/-- One token is taken where it stands, under its own kind or that of its keyword. -/
theorem takeAs {s : State} (limits : Limits) {kind : Kind} (field : Option Field)
    (hk : s.Sees fun t => t.kind ≠ .eof ∧ (kind = t.kind ∨ t.IsWordFor kind)) :
    s.Consumes (s.takeAs limits kind field) where
  stalled := takeAs_stalled s limits kind field
  outOfNodes h := (takeAs_outOfNodes s limits kind field).2 h
  broken _ := takeAs_broken s limits kind field
  aborted h := (takes_takeAs s limits kind field h).1
  reads h := by
    obtain ⟨ha, hp, -⟩ := takes_takeAs s limits kind field h
    obtain ⟨hne, hkind⟩ := hk ha
    refine ⟨[s.mode], [.token kind field s.token.leading s.token.text s.token.trailing],
      by simp [hp], by simp, ?_, by simpa [token] using hne, ?_⟩
    · exact .cons ⟨rfl, rfl, rfl, hkind⟩ .nil
    · simp only [takeAs_tokenReports, Place.read_cons, Place.read_nil, token, List.filterMap_cons,
        List.filterMap_nil]
      cases (s.place.next s.mode).1.report? <;> rfl

/-- Entering a node changes the children only, unless it stops the parse. -/
theorem of_enter {s t : State} {limits : Limits} {children outer : List Shape}
    (h : (s.enter limits children).Consumes t) (kind : Kind)
    (hc : Shape.tokensAll s.children.reverse =
      Shape.tokensAll outer.reverse ++ Shape.tokensAll children.reverse) :
    s.Consumes (t.close outer kind) where
  stalled := by rw [close_stalled, h.stalled, enter_stalled]
  outOfNodes hs := by
    by_contra hleft
    have hinside : ¬(s.enter limits children).OutOfNodes := fun hs => hleft (h.outOfNodes hs)
    exact hinside ((outOfNodes_congr (enter_of_not_outOfNodes hinside).2.2).2 hs)
  broken hleft := by
    have := h.broken hleft
    simpa using this
  aborted ha := (Leads.enter s limits children).aborted (h.aborted ha)
  reads ha := by
    have hs : (s.enter limits children).place = s.place := by
      rcases s.enter_cases limits children with ⟨hp, -⟩ | ⟨hna, -⟩
      · exact hp
      · exact absurd (h.aborted ha) hna
    obtain ⟨modes, taken, hp, htokens, hk, he, hr⟩ := h.reads ha
    rw [hs] at hp hk he hr
    refine ⟨modes, taken, hp, ?_, hk, he, ?_⟩
    · simp only [enter_children] at htokens
      simp [hc, htokens]
    · simpa [tokenReports] using hr

/-- Putting a node into a slot changes none of its tokens. -/
theorem labelLast {s : State} (h : s.EndsInNode) (field : Field) :
    s.Consumes (s.labelLast field) := by
  obtain ⟨kind, f, children, outer, hc⟩ := h
  refine of_eq (by simp) (by simp) (by simp) (by simp) ?_ (by simp [tokenReports])
  rw [labelLast_children s field hc, hc]
  simp [Shape.withField]

end Consumes

end State

namespace Setting

variable {E : Setting} {α : Type}

/-- Repetitions that proceed do what their steps do. -/
theorem Proceeds.consumes {safe : State → Prop} {step : State → Bool × State}
    (hstep : ∀ s, safe s → s.Consumes (step s).2) :
    ∀ {limit : Nat} {s : State}, Proceeds safe step limit s →
      s.Consumes (State.repeatWhile step limit s)
  | 0, _, h => h.elim
  | limit + 1, s, h => by
    obtain ⟨hsafe, hgo⟩ := h
    have hs := hstep s hsafe
    rw [State.repeatWhile]
    split
    · rename_i t ht
      rw [ht] at hgo hs
      obtain ⟨hmoves, hrest⟩ := hgo rfl
      rw [noteStall_of_moves hmoves]
      exact hs.trans (consumes hstep hrest)
    · rename_i t ht
      rw [ht] at hs
      exact hs

/-- **Every safe run consumes what it reads**, if the rules do. -/
theorem consumes_after
    (hrules : ∀ (rule : Rule) (s : State), rule.Ready s → s.Consumes (E.apply rule s))
    {p : Parser α} {s : State} (h : E.Safe p s) : s.Consumes (E.after p s) := by
  induction p generalizing s with
  | done value => exact .refl s
  | andThen first next ihFirst ihNext => exact (ihFirst h.1).trans (ihNext _ h.2)
  | look mode => exact .of_eq rfl rfl rfl rfl rfl rfl
  | ahead distance => exact .of_eq rfl rfl rfl rfl rfl rfl
  | take field => exact .takeAs _ _ fun ha => ⟨h ha, .inl rfl⟩
  | takeWord keyword field =>
    exact .takeAs _ _ fun ha => ⟨(h ha).kind_ne_eof, .inr (h ha)⟩
  | report error => exact .of_eq (by simp) (by simp) (by simp) (by simp) (by simp) (by simp)
  | node body ih => exact (ih h).of_enter _ (by simp)
  | wrap field body ih =>
    obtain ⟨⟨kind, f, children, outer, hc⟩, -, hbody⟩ := h
    exact (ih hbody).of_enter _ (by simp [hc, Shape.withField])
  | label field => exact .labelLast h field
  | loop body ih => exact Proceeds.consumes (fun _ => ih) h
  | call rule => exact hrules rule s h
  | require mode kind =>
    refine ⟨rfl, id, id, fun hleft => ?_, fun _ => .of_eq rfl rfl rfl⟩
    have hkind : (s.place.next mode).1.kind = kind := h hleft
    change (s.broken || (s.place.next mode).1.kind != kind) = s.broken
    simp [hkind]

end Setting

end ActionScript
