import ViewUpkeep.Text.Hidden

/-!
Quoted text: double quotes around the characters, with short escapes for the quote, the backslash
and common controls, and the code point for hidden characters.
-/
namespace ViewUpkeep.Text

/-- Lower-case hexadecimal digits of a code point, most significant first. -/
def hexDigits (n : Nat) : List Char := Nat.toDigits 16 n

def quoteChar (c : Char) : List Char :=
  if c = '"' then ['\\', '"']
  else if c = '\\' then ['\\', '\\']
  else if c = '\n' then ['\\', 'n']
  else if c = '\r' then ['\\', 'r']
  else if c = '\t' then ['\\', 't']
  else if c = '\x00' then ['\\', '0']
  else if isHidden c then ['\\', 'u', '\x7b'] ++ hexDigits c.toNat ++ ['\x7d']
  else [c]

def quote (s : String) : String :=
  String.ofList ('"' :: (s.toList.flatMap quoteChar ++ ['"']))

end ViewUpkeep.Text
