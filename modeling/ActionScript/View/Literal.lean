import ActionScript.Text.Class
import ActionScript.Text.Basic

/-!
# What literals denote

The characters that a string literal stands for, and the parts of a regular expression literal.

An escape that cannot be read keeps its backslash and letter, and the reading goes on behind them.
One that names no character stands for nothing.
-/

set_option autoImplicit false

namespace ActionScript.Literal

/-- The value of a digit of either case, in bases up to sixteen. -/
def digitValue (c : Char) : Nat :=
  if c.isDigit then c.toNat - '0'.toNat
  else if 'a' ≤ c && c ≤ 'f' then c.toNat - 'a'.toNat + 10
  else c.toNat - 'A'.toNat + 10

/-- The number that digits write in a base. -/
def digitsValue (base : Nat) (ds : Text) : Nat :=
  ds.foldl (fun n d => n * base + digitValue d) 0

/-- Reads a hexadecimal number of at most 32 bits, which may have a plus sign in front. -/
def hexNumber? (t : Text) : Option Nat :=
  let ds := match t with
    | '+' :: ds => ds
    | ds => ds
  let n := digitsValue 16 ds
  if !ds.isEmpty && ds.all isHexDigit && n < 0x100000000 then some n else none

/-- The character with a code point, if there is one. -/
def character (n : Nat) : Text :=
  if n < 0xd800 || (0xdfff < n && n < 0x110000) then [Char.ofNat n] else []

/-- An escape of exactly `count` hexadecimal digits: what it denotes, and the rest. -/
def fixedEscape? (count : Nat) (cs : Text) : Option (Text × Text) :=
  let ds := cs.take count
  if Text.size ds == count then (hexNumber? ds).map fun n => (character n, cs.drop count) else none

/-- An escape of digits up to a closing brace: what it denotes, and the rest. -/
def bracedEscape? (cs : Text) : Option (Text × Text) :=
  match cs.dropWhile (· != '}') with
  | _ :: rest => (hexNumber? (cs.takeWhile (· != '}'))).map fun n => (character n, rest)
  | [] => none

/-- What an escape denotes that is written as one character. -/
def simpleEscape (c : Char) : Char :=
  match c with
  | 'n' => '\n'
  | 'r' => '\r'
  | 't' => '\t'
  | 'b' => '\x08'
  | 'f' => '\x0c'
  | 'v' => '\x0b'
  | c => c

/-- What the escape behind a backslash denotes, and the rest. -/
def escape : Text → Text × Text
  | [] => (['\\'], [])
  | '\n' :: cs => ([], cs)
  | '\r' :: '\n' :: cs => ([], cs)
  | '\r' :: cs => ([], cs)
  | 'x' :: cs => (fixedEscape? 2 cs).getD (['\\', 'x'], cs)
  | 'u' :: '{' :: cs => (bracedEscape? cs).getD (['\\', 'u'], '{' :: cs)
  | 'u' :: cs => (fixedEscape? 4 cs).getD (['\\', 'u'], cs)
  | c :: cs =>
    if isOctalDigit c then
      let ds := c :: (cs.take 2).takeWhile isOctalDigit
      (character (digitsValue 8 ds), (c :: cs).drop ds.length)
    else ([simpleEscape c], cs)

/-- What the inside of a string literal denotes.  Each step takes at least one of `limit`
characters. -/
def decode : (limit : Nat) → Text → Text
  | 0, _ => []
  | _ + 1, [] => []
  | limit + 1, c :: cs =>
    if c == '\\' then
      let (denoted, rest) := escape cs
      denoted ++ decode limit rest
    else c :: decode limit cs

/-- What a string literal denotes. -/
def stringValue (t : Text) : Text :=
  let inner := (t.drop 1).dropLast
  decode inner.length inner

/-- The letters behind the last slash of a regular expression literal. -/
def patternFlags (t : Text) : Text :=
  if t.contains '/' then (t.reverse.takeWhile (· != '/')).reverse else []

/-- What stands between the first and the last slash of a regular expression literal. -/
def patternBody (t : Text) : Text :=
  if t.contains '/' then (t.take (t.length - (patternFlags t).length - 1)).drop 1 else []

end ActionScript.Literal
