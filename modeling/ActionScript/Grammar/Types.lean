import ActionScript.Grammar.Recovery

/-!
# Types

`*`, `void`, dotted names and names with type arguments.  Type arguments are closed by a single `>`,
also where operators would read `>>`.
-/

set_option autoImplicit false

namespace ActionScript.Grammar

open ActionScript.Parser

/-- A type in a slot. -/
def typeIn (field : Field) : Parser Unit := callIn field .type

/-- `: T` in a slot. -/
def typeAscription (field : Field) : Parser Unit := do
  require .operator .colon
  nodeOf .typeAscription do
    take none
    typeIn .type
  label field

/-- `: T` in a slot, if a colon comes next. -/
def typeAscription? (field : Field) : Parser Unit := do
  when (← sees .colon) (typeAscription field)

/-- `.<T, U>`. -/
def typeArguments : Parser Unit := do
  require .typeArgs .dotLt
  nodeOf .typeArgList do
    take none
    loop do
      typeIn .type
      if ← seesIn .typeArgs .comma then
        take none
        return true
      else
        return false
    let _ ← expectIn .typeArgs .gt
  label .typeArguments

/-- A dotted name. -/
def typeName : Parser Unit :=
  nodeOf .typeName do
    take none
    loop do
      if ← seesIn .typeArgs .dot then
        let g ← ahead 1
        if g.kind == .name then
          take none
          take none
          return true
        else
          return false
      else
        return false

/-- A type. -/
def typeRule : Parser Unit := do
  let g ← look .typeArgs
  match g.kind with
  | .star => leaf .anyType
  | .name =>
    if g.isWord "void" then wordLeaf .voidKw .voidType
    else
      typeName
      when (← seesIn .typeArgs .dotLt) do
        wrap .base do
          typeArguments
          return .genericType
  | _ => missing .expectedType

/-- Types with commas in between. -/
def typeList : Parser Unit :=
  loop do
    typeIn .type
    eat .comma

end ActionScript.Grammar
