import FiniteAutomata.Text.Printable

/-!
# Quoted text and quoted bytes

A quoted text is bounded by single quotes, unless it holds a single quote and
no double quote. The bounding quote and the backslash are escaped, and so is
every character that cannot be printed.
-/

namespace FiniteAutomata

namespace Quoted

def singleQuote : Char := '\x27'

def doubleQuote : Char := '\x22'

def backslash : Char := '\x5c'

def delimiter (cs : List Char) : Char :=
  if cs.contains singleQuote && !cs.contains doubleQuote then doubleQuote else singleQuote

def hex : Nat → Nat → List Char
  | 0, _ => []
  | width + 1, n => hex width (n / 16) ++ [Nat.digitChar (n % 16)]

def letter? (n : Nat) : Option Char :=
  if n = 10 then some 'n' else if n = 13 then some 'r' else if n = 9 then some 't' else none

def coded (n : Nat) : List Char :=
  if n < 0x100 then backslash :: 'x' :: hex 2 n
  else if n < 0x10000 then backslash :: 'u' :: hex 4 n
  else backslash :: 'U' :: hex 8 n

/-- A character for which `plain` holds stands for itself. -/
def escape (plain : Char → Bool) (quote c : Char) : List Char :=
  if c = quote || c = backslash then [backslash, c]
  else
    match letter? c.toNat with
    | some l => [backslash, l]
    | none => if plain c then [c] else coded c.toNat

def quoted (plain : Char → Bool) (cs : List Char) : List Char :=
  let quote := delimiter cs
  quote :: cs.flatMap (escape plain quote) ++ [quote]

def text (cs : List Char) : List Char := quoted isPrintable cs

/-! ## Bytes -/

def byteChar (b : UInt8) : Char := Char.ofNat b.toNat

def isPrintableAscii (c : Char) : Bool := 0x20 ≤ c.toNat && c.toNat ≤ 0x7e

/-- Quoted bytes follow the letter `b`. A byte outside printable ASCII is
written in hexadecimal. -/
def bytes (bs : List UInt8) : List Char := 'b' :: quoted isPrintableAscii (bs.map byteChar)

end Quoted

end FiniteAutomata
