import PhraseStructure.Text.Unprintable

/-!
# Quoted text

Text in double quotes, with everything written out that could be overlooked: quotes and backslashes get a
backslash, some controls have short names, and other unprintable characters are given by their code point.
-/

namespace PhraseStructure.Text

/-- A number in lower-case hexadecimal digits. -/
def hexadecimal (n : Nat) : String :=
  String.ofList (Nat.toDigits 16 n)

/-- A character as it is written between quotes. -/
def quotedChar (c : Char) : String :=
  match c with
  | '"' => "\\\""
  | '\\' => "\\\\"
  | '\n' => "\\n"
  | '\r' => "\\r"
  | '\t' => "\\t"
  | '\x00' => "\\0"
  | c => if isUnprintable c then "\\u\x7b" ++ hexadecimal c.toNat ++ "\x7d" else c.toString

/-- Text between quotes. -/
def quoted (s : String) : String :=
  "\"" ++ String.join (s.toList.map quotedChar) ++ "\""

end PhraseStructure.Text
