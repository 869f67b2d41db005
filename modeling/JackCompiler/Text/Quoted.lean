import JackCompiler.Text.Printable

/-!
# Quoted characters

A character in a message stands between single quotes. The quote, the backslash
and four control characters have a short escape, and any other character that
is not printable is written as its code in hexadecimal.
-/

namespace JackCompiler

def hexCode (c : Char) : String :=
  String.ofList (Nat.toDigits 16 c.toNat)

def escaped (c : Char) : String :=
  if c = '\x00' then "\\0"
  else if c = '\t' then "\\t"
  else if c = '\n' then "\\n"
  else if c = '\r' then "\\r"
  else if c = '\x27' then "\\'"
  else if c = '\\' then "\\\\"
  else if isPrintable c then c.toString
  else "\\u\x7b" ++ hexCode c ++ "\x7d"

def quoted (c : Char) : String :=
  "'" ++ escaped c ++ "'"

end JackCompiler
