/-
MarkovLogic/Text/Quoted.lean

Texts in quotes, for listings that people read.

A quote and a backslash are escaped, and so is every character that does not
show by itself.
-/
import MarkovLogic.Text.Blank
import MarkovLogic.Text.Hidden

namespace MarkovLogic.Text

/-- The form of a character between quotes. -/
def quotedChar (c : Char) : String :=
  match c with
  | '"' => "\\\""
  | '\\' => "\\\\"
  | '\n' => "\\n"
  | '\r' => "\\r"
  | '\t' => "\\t"
  | '\x00' => "\\0"
  | _ =>
    if isHidden c then "\\u\x7b" ++ hexDigits 1 c.toNat ++ "\x7d" else c.toString

/-- A text in quotes. -/
def quoted (s : String) : String :=
  "\"" ++ String.join (s.toList.map quotedChar) ++ "\""

end MarkovLogic.Text
