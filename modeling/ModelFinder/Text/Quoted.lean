import ModelFinder.Text.Unseen

/-! Text in quotes for diagnosis. Quotes and backslashes are escaped, common control characters have
a letter of their own, and characters that would not be seen are written by their code in braces. -/
namespace ModelFinder.Text

def escape (c : Char) : String :=
  if c = '"' then "\\\""
  else if c = '\\' then "\\\\"
  else if c = '\n' then "\\n"
  else if c = '\r' then "\\r"
  else if c = '\t' then "\\t"
  else if c.toNat = 0 then "\\0"
  else if isUnseen c then
    "\\u\x7b" ++ String.ofList (Nat.toDigits 16 c.toNat) ++ "\x7d"
  else c.toString

def quote (text : String) : String :=
  "\"" ++ String.join (text.toList.map escape) ++ "\""

end ModelFinder.Text
