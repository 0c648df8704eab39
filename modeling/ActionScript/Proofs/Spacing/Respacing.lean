import ActionScript.Proofs.Refinement
import ActionScript.Proofs.Spacing.Runs
import ActionScript.Tree.Dump

/-!
# White space on a line

How much white space stands between two tokens of a line, and which, means nothing: the parse of a
text in which each piece of it is replaced by another one has the same nodes and slots, reports the
same, and differs in those pieces only.

Both texts are the same when squeezed, and so are their parses.  What is left to show is that the
tokens are the same also within markup and literals, where white space stays as it is: the pieces of
a text are known from the squeezed ones, as none of them tears a run of blanks apart.

* `Shape.sexpAll_squeeze`: what an s-expression shows does not depend on blanks.
* `Trivia.IsRun`, `State.Outcome.isRun_written`: pieces of white space are runs of blanks.
* `parseWithin_respaced`: **white space on a line is irrelevant.**
-/

set_option autoImplicit false

namespace ActionScript

open ActionScript.Text

/-! ## S-expressions of shapes -/

namespace Shape

mutual

/-- The s-expression of a shape, in front of `tail`. -/
def sexp (tail : Text) : Shape → Text
  | .token kind .. => if kind == .unknown then " (unknown)".toList ++ tail else tail
  | .node kind field children =>
    ' ' :: (Field.lead field ++ '(' :: (kind.tag.toList ++ sexpAll (')' :: tail) children))

/-- The s-expressions of several shapes, in front of `tail`. -/
def sexpAll (tail : Text) : List Shape → Text
  | [] => tail
  | s :: ss => sexp (sexpAll tail ss) s

end

mutual

/-- The s-expression of an item is that of the shape that is laid out. -/
theorem sexp_lay (tail : Text) (p : Progress) (s : Shape) :
    Item.sexp tail (p.lay s).1 = s.sexp tail := by
  cases s with
  | token kind field leading text trailing => rfl
  | node kind field children =>
    rw [Progress.lay, Item.sexp, sexp, sexpAll_layAll]
    rfl

theorem sexpAll_layAll (tail : Text) (p : Progress) (ss : List Shape) :
    Item.sexpAll tail (p.layAll ss).1 = sexpAll tail ss := by
  cases ss with
  | nil => rfl
  | cons s ss =>
    rw [Progress.layAll, sexpAll]
    dsimp only
    rw [Item.sexpAll, sexpAll_layAll, sexp_lay]

end

mutual

theorem sexp_squeeze (tail : Text) (s : Shape) : s.squeeze.sexp tail = s.sexp tail := by
  cases s with
  | token kind field leading text trailing => rw [squeeze, sexp, sexp]
  | node kind field children => rw [squeeze_node, sexp, sexp, sexpAll_squeeze]

/-- Blanks do not show in s-expressions. -/
theorem sexpAll_squeeze (tail : Text) (ss : List Shape) :
    sexpAll tail (ss.map squeeze) = sexpAll tail ss := by
  cases ss with
  | nil => rfl
  | cons s ss => rw [List.map_cons, sexpAll, sexpAll, sexpAll_squeeze, sexp_squeeze]

end

mutual

theorem tokens_squeeze (s : Shape) : s.squeeze.tokens = s.tokens.map squeeze := by
  cases s with
  | token kind field leading text trailing =>
    rw [squeeze, tokens_token, tokens_token, List.map_singleton, squeeze]
  | node kind field children => rw [squeeze_node, tokens_node, tokens_node, tokensAll_squeeze]

theorem tokensAll_squeeze (ss : List Shape) :
    tokensAll (ss.map squeeze) = (tokensAll ss).map squeeze := by
  cases ss with
  | nil => simp
  | cons s ss =>
    rw [List.map_cons, tokensAll_cons, tokensAll_cons, List.map_append, tokens_squeeze,
      tokensAll_squeeze]

end

end Shape

/-! ## Tokens as they are written -/

/-- A token or a piece of trivia as it is written: its kind and its text. -/
abbrev Written := Kind × Text

/-- The same with a single space for each run of blanks. -/
def Written.squeeze (w : Written) : Written := (w.1, Text.squeeze w.2)

/-- White space is a run of blanks. -/
def Written.IsRun (w : Written) : Prop := w.1 = .whitespace → w.2 ≠ [] ∧ w.2.all isBlank = true

namespace Trivia

/-- A piece as it is written. -/
def written (t : Trivia) : Written := (t.kind.kind, t.text)

theorem map_written_squeeze (ts : List Trivia) :
    (ts.map squeeze).map written = (ts.map written).map Written.squeeze := by
  rw [List.map_map, List.map_map]
  rfl

/-- What is no white space need not be a run. -/
theorem isRun_of_kind_ne {t : Trivia} (h : t.kind ≠ .whitespace) : t.written.IsRun := by
  intro hspace
  have hkind : t.kind.kind = .whitespace := hspace
  cases hsort : t.kind with
  | whitespace => exact absurd hsort h
  | _ =>
    rw [hsort] at hkind
    cases hkind

theorem isRun_blanks? {cs : Text} {cut : Cut} (h : blanks? cs = some cut) :
    cut.piece.written.IsRun := by
  unfold blanks? at h
  split at h
  · cases h
  · rename_i body hne
    cases h
    exact fun _ => ⟨hne, List.all_takeWhile⟩

theorem isRun_comment? {cs : Text} {cut : Cut} (h : comment? cs = some cut) :
    cut.piece.written.IsRun := by
  refine isRun_of_kind_ne fun hspace => ?_
  unfold comment? at h
  split at h
  · cases h
    cases hspace
  · split at h <;> cases h <;> cases hspace
  · cases h

theorem isRun_lineBreak? {cs : Text} {cut : Cut} (h : lineBreak? cs = some cut) :
    cut.piece.written.IsRun := by
  refine isRun_of_kind_ne fun hspace => ?_
  unfold lineBreak? at h
  split at h
  · cases h
    cases hspace
  · split at h
    · cases h
      cases hspace
    · cases h
  · cases h

theorem isRun_leading? {inCode : Bool} {cs : Text} {cut : Cut} (h : leading? inCode cs = some cut) :
    cut.piece.written.IsRun := by
  rcases leading?_cases h with h | ⟨-, h⟩ | h
  · exact isRun_lineBreak? h
  · exact isRun_comment? h
  · exact isRun_blanks? h

theorem isRun_trailing? {cs : Text} {cut : Cut} (h : trailing? cs = some cut) :
    cut.piece.written.IsRun := by
  rcases trailing?_cases h with ⟨h, -⟩ | h
  · exact isRun_comment? h
  · exact isRun_blanks? h

end Trivia

/-- **The pieces of white space around a token are runs of blanks.** -/
theorem Place.isRun_next [Alphabet] (p : Place) (mode : Mode) :
    (∀ t ∈ (p.next mode).1.leading, t.written.IsRun) ∧
      ∀ t ∈ (p.next mode).1.trailing, t.written.IsRun :=
  ⟨mode.forall_leading Trivia.isRun_leading? _, mode.forall_trailing Trivia.isRun_trailing? _ _⟩

namespace Shape

/-- A token as it is written, with the pieces around it. -/
def written : Shape → List Written
  | .token kind _ leading text trailing =>
    leading.map Trivia.written ++ (kind, text) :: trailing.map Trivia.written
  | .node .. => []

theorem written_squeeze (s : Shape) : s.squeeze.written = s.written.map Written.squeeze := by
  cases s with
  | token kind field leading text trailing =>
    rw [squeeze, written, written, List.map_append, List.map_cons, Trivia.map_written_squeeze,
      Trivia.map_written_squeeze]
    rfl
  | node kind field children => rw [squeeze_node, written, written, List.map_nil]

/-- All tokens as they are written. -/
def writtenAll (ss : List Shape) : List Written := (tokensAll ss).flatMap written

theorem writtenAll_squeeze (ss : List Shape) :
    writtenAll (ss.map squeeze) = (writtenAll ss).map Written.squeeze := by
  rw [writtenAll, writtenAll, tokensAll_squeeze, List.flatMap_map, List.map_flatMap]
  congr 1
  exact funext written_squeeze

/-- White space that is kept of a token that was read is a run of blanks. -/
theorem Keeps.isRun [Alphabet] {p : Place} {mode : Mode} {s : Shape} (h : s.Keeps (p.next mode).1) :
    ∀ w ∈ s.written, w.IsRun := by
  obtain ⟨hlead, htrail⟩ := p.isRun_next mode
  have hkind := h.not_trivia Place.next_not_trivia
  cases s with
  | node kind field children => exact h.elim
  | token kind field leading text trailing =>
    obtain ⟨rfl, -, rfl, -⟩ := h
    intro w hw
    rw [written, List.mem_append, List.mem_cons] at hw
    rcases hw with hw | rfl | hw
    · obtain ⟨t, ht, rfl⟩ := List.mem_map.1 hw
      exact hlead t ht
    · rintro rfl
      cases hkind
    · obtain ⟨t, ht, rfl⟩ := List.mem_map.1 hw
      exact htrail t ht

end Shape

/-! ## Tokens of trees -/

/-- A leaf as it is written. -/
def Leaf.written (l : Leaf) : Written := (l.kind, l.text)

/-- A token of a tree as it is written. -/
def Tree.Token.written (t : Tree.Token) : Written := (t.kind, t.leaf.text)

theorem Leaf.ShowPieces.written {ts : List Trivia} {ls : List Leaf} {offset : Nat}
    (h : Leaf.ShowPieces offset ts ls) : ls.map Leaf.written = ts.map Trivia.written := by
  induction ts generalizing offset ls with
  | nil =>
    cases ls with
    | nil => rfl
    | cons l ls => exact h.elim
  | cons t ts ih =>
    cases ls with
    | nil => exact h.elim
    | cons l ls =>
      obtain ⟨hkind, htext, -, hrest⟩ := h
      rw [List.map_cons, List.map_cons, ih hrest, Leaf.written, Trivia.written, hkind, htext]

theorem Cluster.Shows.written {c : Cluster} {offset : Nat} {s : Shape} (h : c.Shows offset s) :
    c.leaves.map Leaf.written = s.written := by
  cases s with
  | node kind field children => exact h.elim
  | token kind field leading text trailing =>
    obtain ⟨hlead, hkind, -, htext, -, htrail⟩ := h
    rw [Cluster.leaves, List.map_append, List.map_cons, hlead.written, htrail.written, Leaf.written,
      hkind, htext, Shape.written]

theorem Laid.written {ss : List Shape} {cs : List Cluster} {start stop : Nat}
    (h : Laid start ss cs stop) :
    (cs.flatMap Cluster.leaves).map Leaf.written = ss.flatMap Shape.written := by
  induction h with
  | nil => rfl
  | cons hshows _ ih =>
    rw [List.flatMap_cons, List.map_append, hshows.written, ih, List.flatMap_cons]

theorem Trivia.flatten_map_written (ts : List Trivia) :
    ((ts.map written).map Prod.snd).flatten = Trivia.flatten ts := by
  rw [List.map_map, Trivia.flatten, List.flatMap_def]
  rfl

/-- What is written in tokens makes up their source. -/
theorem Shape.flatten_written {s : Shape} (h : s.written ≠ []) :
    (s.written.map Prod.snd).flatten = s.source := by
  cases s with
  | node kind field children => exact absurd rfl h
  | token kind field leading text trailing =>
    rw [written, List.map_append, List.map_cons, List.flatten_append, List.flatten_cons,
      Trivia.flatten_map_written, Trivia.flatten_map_written, source, List.append_assoc]

/-- What is kept of a token that was read is a token. -/
theorem Shape.Keeps.written_ne {t : Token} {s : Shape} (h : s.Keeps t) : s.written ≠ [] := by
  cases s with
  | node kind field children => exact h.elim
  | token kind field leading text trailing => simp [written]

namespace State.Outcome

variable {s : State} {text : Text} {modes : List Mode} {kids : List Shape} {last : Token}

variable [Alphabet]

/-- The children of the root. -/
def shapes (_ : s.Outcome text modes kids last) : List Shape :=
  kids ++ [.token .eof none last.leading last.text last.trailing]

theorem isRun_written (h : s.Outcome text modes kids last) :
    ∀ w ∈ Shape.writtenAll h.shapes, w.IsRun := by
  intro w hw
  obtain ⟨shape, hshape, hw⟩ := List.mem_flatMap.1 hw
  obtain ⟨t, ht, hkeep⟩ := exists_rel_of_mem h.keeps_all hshape
  obtain ⟨q, mode, rfl⟩ := Place.exists_next_of_mem_read ht
  exact hkeep.isRun w hw

/-- What is written makes up the text. -/
theorem flatten_written (h : s.Outcome text modes kids last) :
    ((Shape.writtenAll h.shapes).map Prod.snd).flatten = text := by
  have hne : ∀ shape ∈ Shape.tokensAll h.shapes, shape.written ≠ [] := by
    intro shape hshape
    obtain ⟨t, ht, hkeep⟩ := exists_rel_of_mem h.keeps_all hshape
    exact hkeep.written_ne
  have hsource := h.sourceAll_eq
  rw [← Shape.sourceAll_tokensAll] at hsource
  refine Eq.trans ?_ hsource
  change ((Shape.writtenAll h.shapes).map Prod.snd).flatten =
    Shape.sourceAll (Shape.tokensAll h.shapes)
  rw [Shape.writtenAll]
  generalize Shape.tokensAll h.shapes = ss at hne
  induction ss with
  | nil => rfl
  | cons shape ss ih =>
    rw [List.flatMap_cons, List.map_append, List.flatten_append, Shape.sourceAll,
      Shape.flatten_written (hne shape List.mem_cons_self),
      ih fun other hother => hne other (List.mem_cons_of_mem _ hother)]

end State.Outcome

/-- What is behind a parse that gives a tree, as far as it can be written. -/
theorem exists_written [Alphabet] {limits : Limits} {text : Text} {p : Parse}
    (h : parseWithin limits text = .ok p) :
    ∃ ss, (State.run limits text).children = [.node .sourceFile none ss] ∧
      p.tree.tokens.map Tree.Token.written = Shape.writtenAll ss ∧
      (∀ w ∈ Shape.writtenAll ss, w.IsRun) ∧
      ((Shape.writtenAll ss).map Prod.snd).flatten = text ∧
      p.tree.sexp = '(' :: (Kind.sourceFile.tag.toList ++ Shape.sexpAll [')'] ss) ∧
      p.diagnostics = (State.run limits text).reports.reverse := by
  obtain ⟨modes, kids, last, hout, -, hkind, -, hchildren, hdiagnostics⟩ := exists_outcome h
  have hlaid := Progress.laid_layAll { nodes := 1 } hout.shapes
  refine ⟨hout.shapes, hout.children, ?_, hout.isRun_written, hout.flatten_written, ?_,
    hdiagnostics⟩
  · have hleaves := Tree.Node.map_leaf_tokens p.tree.root
    rw [hchildren] at hleaves
    calc p.tree.tokens.map Tree.Token.written
        = (p.tree.root.tokens.map Tree.Token.leaf).map Leaf.written := by
          rw [List.map_map]
          rfl
      _ = Shape.writtenAll hout.shapes := by
          rw [hleaves]
          exact hlaid.written
  · rw [Tree.sexp, Tree.Node.sexp, hkind, hchildren, Shape.sexpAll_layAll]
    rfl

/-! ## Other white space -/

/-- A token with another text, if it is white space. -/
def Tree.Token.respaced (blanks : Tree.Token → Text) (t : Tree.Token) : Text :=
  if t.kind = .whitespace then blanks t else t.leaf.text

/-- The text of a tree with other white space on its lines. -/
def Tree.respaced (blanks : Tree.Token → Text) (t : Tree) : Text :=
  t.tokens.flatMap (Tree.Token.respaced blanks)

/-- **The parse of a squeezed text is the squeezed parse**: it has the same nodes and slots, reports
the same, and has the squeezed tokens. -/
theorem parseWithin_squeeze [Alphabet] {limits : Limits} {text : Text} {p : Parse}
    (h : parseWithin limits text = .ok p) :
    ∃ q, parseWithin limits (squeeze text) = .ok q ∧ q.tree.sexp = p.tree.sexp ∧
      q.diagnostics.map Diagnostic.cause = p.diagnostics.map Diagnostic.cause ∧
      q.tree.tokens.map Tree.Token.written =
        (p.tree.tokens.map Tree.Token.written).map Written.squeeze := by
  have hecho := State.echoes_run limits text
  have ha : (State.run limits (squeeze text)).aborted = none := by
    rw [hecho.aborted, aborted_of_parseWithin h]
  obtain ⟨modes, kids, last, hout⟩ := State.run_outcome ha
  have hsqueezed := hout.parseWithin_eq ha
  obtain ⟨ss, hss, htokens, -, -, hsexp, hdiagnostics⟩ := exists_written h
  obtain ⟨ts, hts, htokens', -, -, hsexp', hdiagnostics'⟩ := exists_written hsqueezed
  obtain rfl : ts = ss.map Shape.squeeze := by
    have hchildren := hecho.children
    rw [hss, hts, List.map_singleton, Shape.squeeze_node] at hchildren
    simpa using hchildren
  refine ⟨_, hsqueezed, ?_, ?_, ?_⟩
  · rw [hsexp, hsexp', Shape.sexpAll_squeeze]
  · rw [hdiagnostics, hdiagnostics', List.map_reverse, List.map_reverse, hecho.causes]
  · rw [htokens, htokens', Shape.writtenAll_squeeze]

/-- The texts of all tokens of a tree. -/
def Tree.texts (t : Tree) : List Text := t.tokens.map fun token => token.leaf.text

theorem Tree.map_snd_written (t : Tree) :
    (t.tokens.map Tree.Token.written).map Prod.snd = t.texts := by
  rw [List.map_map, Tree.texts]
  rfl

theorem Tree.map_snd_squeeze_written (t : Tree) :
    ((t.tokens.map Tree.Token.written).map Written.squeeze).map Prod.snd = t.texts.map squeeze := by
  rw [Tree.texts, List.map_map, List.map_map, List.map_map]
  rfl

/-- The texts of all tokens make up the text. -/
theorem flatten_texts [Alphabet] {limits : Limits} {text : Text} {p : Parse}
    (h : parseWithin limits text = .ok p) : p.tree.texts.flatten = text := by
  obtain ⟨ss, -, htokens, -, hflat, -⟩ := exists_written h
  rwa [← htokens, Tree.map_snd_written] at hflat

/-- No token tears a run of blanks apart. -/
theorem squeeze_eq_flatten_texts [Alphabet] {limits : Limits} {text : Text} {p : Parse}
    (h : parseWithin limits text = .ok p) : squeeze text = (p.tree.texts.map squeeze).flatten := by
  obtain ⟨q, hq, -, -, hwritten⟩ := parseWithin_squeeze h
  rw [← Tree.map_snd_squeeze_written, ← hwritten, Tree.map_snd_written, flatten_texts hq]

/-- Of texts that are the same when squeezed all are parsed or none. -/
theorem exists_parseWithin_of_squeeze [Alphabet] {limits : Limits} {text text' : Text} {p : Parse}
    (h : parseWithin limits text = .ok p) (hsame : squeeze text' = squeeze text) :
    ∃ p', parseWithin limits text' = .ok p' := by
  have hecho := State.echoes_run limits text'
  rw [hsame] at hecho
  have ha : (State.run limits text').aborted = none := by
    rw [← hecho.aborted, (State.echoes_run limits text).aborted, aborted_of_parseWithin h]
  obtain ⟨modes, kids, last, hout⟩ := State.run_outcome ha
  exact ⟨_, hout.parseWithin_eq ha⟩

/-- Pairs with the same first and the same second parts are the same. -/
theorem eq_of_map_fst_snd {α β : Type} {as bs : List (α × β)}
    (hfst : as.map Prod.fst = bs.map Prod.fst) (hsnd : as.map Prod.snd = bs.map Prod.snd) :
    as = bs := by
  rw [← List.zip_unzip as, ← List.zip_unzip bs, List.unzip_fst, List.unzip_snd, List.unzip_fst,
    List.unzip_snd, hfst, hsnd]

section
variable {limits : Limits} {text : Text} {p : Parse} {blanks : Tree.Token → Text}

variable [Alphabet]

/-- Other white space is the same when squeezed. -/
theorem map_squeeze_respaced (h : parseWithin limits text = .ok p)
    (hblanks : ∀ t ∈ p.tree.tokens, t.kind = .whitespace →
      blanks t ≠ [] ∧ (blanks t).all isBlank = true) :
    (p.tree.tokens.map (Tree.Token.respaced blanks)).map squeeze = p.tree.texts.map squeeze := by
  obtain ⟨ss, -, htokens, hruns, -⟩ := exists_written h
  rw [Tree.texts, List.map_map, List.map_map]
  refine List.map_congr_left fun t ht => ?_
  have hrun : t.written.IsRun := hruns _ (htokens ▸ List.mem_map_of_mem ht)
  simp only [Function.comp_apply, Tree.Token.respaced]
  split
  · rename_i hspace
    obtain ⟨hne, hall⟩ := hblanks t ht hspace
    obtain ⟨hne', hall'⟩ := hrun hspace
    rw [squeeze_blanks hne hall]
    exact (squeeze_blanks hne' hall').symm
  · rfl

/-- **The tokens of a text with other white space** are its tokens, with the other white space. -/
theorem written_respaced (h : parseWithin limits text = .ok p)
    (hblanks : ∀ t ∈ p.tree.tokens, t.kind = .whitespace →
      blanks t ≠ [] ∧ (blanks t).all isBlank = true) :
    ∃ p', parseWithin limits (p.tree.respaced blanks) = .ok p' ∧ p'.tree.sexp = p.tree.sexp ∧
      p'.diagnostics.map Diagnostic.cause = p.diagnostics.map Diagnostic.cause ∧
      p'.tree.tokens.map Tree.Token.written =
        p.tree.tokens.map fun t => (t.kind, t.respaced blanks) := by
  have hrespaced := map_squeeze_respaced h hblanks
  have hwhole := squeeze_eq_flatten_texts h
  -- the pieces of the other text can be squeezed one by one, so it is the same when squeezed
  have hparted := squeeze_flatten_congr hrespaced (by rw [flatten_texts h]; exact hwhole)
  have hsame : squeeze (p.tree.respaced blanks) = squeeze text := by
    rw [Tree.respaced, List.flatMap_def, hparted, hrespaced, ← hwhole]
  obtain ⟨q, hq, hsexp, hcauses, hwritten⟩ := parseWithin_squeeze h
  obtain ⟨p', h'⟩ := exists_parseWithin_of_squeeze h hsame
  obtain ⟨q', hq', hsexp', hcauses', hwritten'⟩ := parseWithin_squeeze h'
  obtain rfl : q' = q := by
    rw [hsame, hq] at hq'
    exact (Except.ok.inj hq').symm
  have hsqueezed := hwritten'.symm.trans hwritten
  -- its tokens are those pieces, as both make it up and are the same when squeezed
  have htexts : p'.tree.texts = p.tree.tokens.map (Tree.Token.respaced blanks) := by
    have hmap : p'.tree.texts.map squeeze = p.tree.texts.map squeeze := by
      rw [← Tree.map_snd_squeeze_written, hsqueezed, Tree.map_snd_squeeze_written]
    refine (eq_of_map_squeeze (hrespaced.trans hmap.symm) ?_ hparted).symm
    rw [flatten_texts h', Tree.respaced, List.flatMap_def]
  refine ⟨p', h', hsexp'.symm.trans hsexp, hcauses'.symm.trans hcauses, eq_of_map_fst_snd ?_ ?_⟩
  · have hkinds := congrArg (List.map Prod.fst) hsqueezed
    simp only [List.map_map] at hkinds ⊢
    exact hkinds
  · rw [Tree.map_snd_written, htexts, List.map_map]
    rfl

/-- **White space on a line is irrelevant.**  Whatever the limits, if a text is parsed then so is
the text in which each token of white space is replaced by any other run of blanks.  The trees have
the same s-expression, the same is reported in the same order (though elsewhere), and the tokens
other than white space have the same kinds and texts in the same order. -/
theorem parseWithin_respaced (h : parseWithin limits text = .ok p)
    (hblanks : ∀ t ∈ p.tree.tokens, t.kind = .whitespace →
      blanks t ≠ [] ∧ (blanks t).all isBlank = true) :
    ∃ p', parseWithin limits (p.tree.respaced blanks) = .ok p' ∧ p'.tree.sexp = p.tree.sexp ∧
      p'.diagnostics.map Diagnostic.cause = p.diagnostics.map Diagnostic.cause ∧
      (p'.tree.tokens.filter fun t => t.kind != .whitespace).map Tree.Token.written =
        (p.tree.tokens.filter fun t => t.kind != .whitespace).map Tree.Token.written := by
  obtain ⟨p', h', hsexp, hcauses, hwritten⟩ := written_respaced h hblanks
  have hfilter (ts : List Tree.Token) (f : Tree.Token → Written) (hf : ∀ t, (f t).1 = t.kind) :
      (ts.filter fun t => t.kind != .whitespace).map f =
        (ts.map f).filter fun w => w.1 != .whitespace := by
    rw [List.filter_map]
    congr 2
    exact funext fun t => by rw [Function.comp_apply, hf]
  refine ⟨p', h', hsexp, hcauses, ?_⟩
  rw [hfilter _ _ fun _ => rfl, hwritten, ← hfilter _ _ fun _ => rfl]
  refine List.map_congr_left fun t ht => ?_
  have hspace : t.kind ≠ .whitespace := by simpa using (List.mem_filter.1 ht).2
  rw [Tree.Token.respaced, if_neg hspace]
  rfl

end

/-- Blanks in an element and in a literal are no white space, and stay as they are. -/
theorem parseWithin_respaced_element :
    ∃ p, parseWithin {} "x = <a b = 'c  d'>  e  </a> ;".toList = .ok p ∧
    ∃ p', parseWithin {} (p.tree.respaced fun _ => ['\t', ' ']) = .ok p' ∧
      p'.tree.sexp = p.tree.sexp ∧
      p'.diagnostics.map Diagnostic.cause = p.diagnostics.map Diagnostic.cause ∧
      (p'.tree.tokens.filter fun t => t.kind != .whitespace).map Tree.Token.written =
        (p.tree.tokens.filter fun t => t.kind != .whitespace).map Tree.Token.written := by
  obtain ⟨p, hp, -⟩ :=
    exists_parseWithin (Limits.endless_maxDepth _) "x = <a b = 'c  d'>  e  </a> ;".toList
  exact ⟨p, hp, parseWithin_respaced hp fun _ _ _ => ⟨by decide, by decide⟩⟩

end ActionScript
