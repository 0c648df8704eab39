import ActionScript.Text.Basic
import ActionScript.Text.Hidden

/-!
# Quoted text

The form in which dumps show the text of a token: between double quotes, with the usual short
escapes, and hidden characters by code point.
-/

set_option autoImplicit false

namespace ActionScript.Text

/-- How one character is shown between quotes. -/
def escape (c : Char) : Text :=
  if c == '"' then ['\\', '"']
  else if c == '\\' then ['\\', '\\']
  else if c == '\n' then ['\\', 'n']
  else if c == '\r' then ['\\', 'r']
  else if c == '\t' then ['\\', 't']
  else if c == '\x00' then ['\\', '0']
  else if isHidden c then ['\\', 'u', '{'] ++ Nat.toDigits 16 c.toNat ++ ['}']
  else [c]

/-- A text between quotes. -/
def quoted (t : Text) : Text := '"' :: t.flatMap escape ++ ['"']

end ActionScript.Text
