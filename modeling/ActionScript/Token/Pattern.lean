import ActionScript.Token.Basic

/-!
# Regular expression literals

A literal runs to the first `/` on its line that is neither escaped nor inside brackets, and takes
the letters behind it as flags.  Without such a `/` only the opening slash is taken.
-/

set_option autoImplicit false

namespace ActionScript.Pattern

/-- The text up to the closing slash, that included, and the rest. -/
def body : (bracketed : Bool) → Text → Option (Text × Text)
  | _, [] => none
  | bracketed, c :: cs =>
    if isLineBreak c then none
    else if c == '\\' then
      match cs with
      | [] => none
      | d :: ds =>
        if isLineBreak d then none
        else (body bracketed ds).map fun (read, rest) => (c :: d :: read, rest)
    else if c == '/' && !bracketed then some ([c], cs)
    else
      (body (if c == '[' then true else if c == ']' then false else bracketed) cs).map
        fun (read, rest) => (c :: read, rest)

/-- The literal that a slash opens in front of `cs`. -/
def lexeme [Alphabet] (cs : Text) : Lexeme :=
  match body false cs with
  | some (read, rest) =>
    ⟨.regex, '/' :: read ++ rest.takeWhile isIdentContinue, rest.dropWhile isIdentContinue, none⟩
  | none => .faulty .unterminatedRegex .unknown ['/'] cs

/-! ## Nothing is lost -/

theorem body_append {bracketed : Bool} {cs read rest : Text}
    (h : body bracketed cs = some (read, rest)) : read ++ rest = cs := by
  fun_induction body bracketed cs generalizing read with
  | case1 | case2 | case3 | case4 => exact absurd h (by simp)
  | case5 bracketed c hbreak hescape d ds hd ih =>
    simp only [Option.map_eq_some_iff, Prod.mk.injEq] at h
    obtain ⟨⟨read, rest⟩, hbody, rfl, rfl⟩ := h
    simp [ih hbody]
  | case6 bracketed c cs hbreak hescape hslash =>
    simp only [Option.some.injEq, Prod.mk.injEq] at h
    obtain ⟨rfl, rfl⟩ := h
    rfl
  | case7 bracketed c cs hbreak hescape hslash ih =>
    simp only [Option.map_eq_some_iff, Prod.mk.injEq] at h
    obtain ⟨⟨read, rest⟩, hbody, rfl, rfl⟩ := h
    simp [ih hbody]

/-- **A literal and the rest make up the text.** -/
theorem lexeme_append [Alphabet] (cs : Text) :
    (lexeme cs).text ++ (lexeme cs).rest = '/' :: cs := by
  unfold lexeme
  split
  · rename_i read rest h
    simp only [List.cons_append, List.append_assoc, List.takeWhile_append_dropWhile,
      body_append h]
  · rfl

end ActionScript.Pattern
