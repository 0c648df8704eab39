import ActionScript.Grammar.Types

/-!
# Signatures

Parameter lists and return types, as functions with and without a name have them.
-/

set_option autoImplicit false

namespace ActionScript.Grammar

open ActionScript.Parser

/-- `name : T = value`. -/
def parameter : Parser Unit := do
  nodeOf .param do
    name .name []
    typeAscription? .type
    when (← sees .eq) do
      take none
      assignment .value
  label .parameter

/-- `...name : T`. -/
def restParameter : Parser Unit := do
  nodeOf .restParam do
    take none
    name .name [.colon]
    typeAscription? .type
  label .parameter

/-- Parameters in parentheses.  The list ends before a token that opens no parameter, so that only
the closing parenthesis is missed. -/
def parameterList : Parser Unit := do
  nodeOf .paramList do
    take none
    loop do
      let k ← peek
      match k with
      | .dot3 =>
        restParameter
        eat .comma
      | .name =>
        parameter
        eat .comma
      | _ => return false
    expect .rParen
  label .parameters

/-- Parameters and return type. -/
def signature : Parser Unit := do
  let found ← sees .lParen
  (if found then parameterList
   else do
    missing .expectedParameterList
    label .parameters)
  typeAscription? .returnType

end ActionScript.Grammar
