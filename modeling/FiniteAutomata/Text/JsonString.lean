import FiniteAutomata.Text.Quoted

/-!
# JSON strings in ASCII

Every character outside U+0020 .. U+007E is escaped, one above U+FFFF as a
surrogate pair.
-/

namespace FiniteAutomata

namespace JsonString

def units16 (n : Nat) : List Nat :=
  if n < 0x10000 then [n]
  else [0xd800 + (n - 0x10000) / 0x400, 0xdc00 + (n - 0x10000) % 0x400]

def coded (unit : Nat) : List Char := Quoted.backslash :: 'u' :: Quoted.hex 4 unit

/-- The control characters with a letter of their own. -/
def letter? (n : Nat) : Option Char :=
  if n = 8 then some 'b'
  else if n = 9 then some 't'
  else if n = 10 then some 'n'
  else if n = 12 then some 'f'
  else if n = 13 then some 'r'
  else none

def escape (c : Char) : List Char :=
  if c = Quoted.doubleQuote || c = Quoted.backslash then [Quoted.backslash, c]
  else if 0x20 ≤ c.toNat && c.toNat ≤ 0x7e then [c]
  else
    match letter? c.toNat with
    | some l => [Quoted.backslash, l]
    | none => (units16 c.toNat).flatMap coded

def text (s : String) : String :=
  String.ofList (Quoted.doubleQuote :: s.toList.flatMap escape ++ [Quoted.doubleQuote])

end JsonString

end FiniteAutomata
