import StackMachine.Text.Spelled

/-! Texts in quotes, as they appear inside lists and maps. -/

namespace StackMachine.Text

def codePoint (c : Char) : List Char :=
  '\\' :: 'u' :: '\x7b' :: Nat.toDigits 16 c.toNat ++ ['\x7d']

def escape (c : Char) : List Char :=
  match c with
  | '\x00' => ['\\', '0']
  | '\t' => ['\\', 't']
  | '\r' => ['\\', 'r']
  | '\n' => ['\\', 'n']
  | '"' => ['\\', '"']
  | '\\' => ['\\', '\\']
  | c =>
    -- the blank and the printable ASCII characters need no look at the table
    if ' ' ≤ c && c ≤ '~' then [c]
    else if isSpelled c then codePoint c
    else [c]

def quote (s : String) : String :=
  String.ofList ('"' :: s.toList.flatMap escape ++ ['"'])

end StackMachine.Text
