import PairScript.Text.Unprintable

/-!
# Quoted text

Messages and syntax trees show a string between double quotes, with a backslash before quotes
and backslashes, short names for the common controls, and the code point in braces for every
other character without a visible form.
-/

namespace PairScript.Text

/-- Lower-case hexadecimal digits of a code point. -/
def hexDigits (n : Nat) : String := String.ofList (Nat.toDigits 16 n)

/-- A character as it stands in quoted text. -/
def quotedChar (c : Char) : String :=
  match c with
  | '\x00' => "\\0"
  | '\t' => "\\t"
  | '\r' => "\\r"
  | '\n' => "\\n"
  | '\x22' => "\\\""
  | '\\' => "\\\\"
  | c =>
    if Unprintable.contains c then "\\u\x7b" ++ hexDigits c.toNat ++ "\x7d"
    else c.toString

/-- A string between double quotes. -/
def quoted (s : String) : String :=
  s.foldl (fun acc c => acc ++ quotedChar c) "\"" ++ "\""

end PairScript.Text
