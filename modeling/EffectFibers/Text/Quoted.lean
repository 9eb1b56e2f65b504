import EffectFibers.Text.Unprintable

/-!
# Quoted text

The detailed form of a text: double quotes around it, a backslash before quotes and backslashes,
short names for the usual controls, and `\u{..}` with the hexadecimal number for every other
character without a visible form.  Lists, sets and records of such texts are written around it.
-/

namespace EffectFibers.Text

/-- Lower-case hexadecimal digits without leading zeros. -/
def hex (n : Nat) : String := String.ofList (Nat.toDigits 16 n)

/-- One character inside quotes. -/
def quotedChar (c : Char) : String :=
  match c with
  | '\x00' => "\\0"
  | '\t' => "\\t"
  | '\n' => "\\n"
  | '\r' => "\\r"
  | '"' => "\\\""
  | '\\' => "\\\\"
  | c => if isUnprintable c then "\\u\x7b" ++ hex c.toNat ++ "\x7d" else c.toString

/-- A text in quotes. -/
def quoted (s : String) : String :=
  "\"" ++ String.join (s.toList.map quotedChar) ++ "\""

/-- Items between square brackets. -/
def bracketed (items : List String) : String := "[" ++ ", ".intercalate items ++ "]"

/-- Items between braces. -/
def braced (items : List String) : String := "\x7b" ++ ", ".intercalate items ++ "\x7d"

/-- A named record: the name, then its fields between braces. -/
def record (name : String) (fields : List (String × String)) : String :=
  let fields := fields.map fun field => field.1 ++ ": " ++ field.2
  name ++ " \x7b " ++ ", ".intercalate fields ++ " \x7d"

end EffectFibers.Text
