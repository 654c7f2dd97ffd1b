import FiniteAutomata.Number.Shortest

/-!
# Numbers: integers of any size and floating point numbers

They are compared by exact value: an integer is never rounded for a
comparison.
-/

namespace FiniteAutomata

inductive Number where
  | int (n : Int)
  | float (x : Binary64)
  deriving DecidableEq, Inhabited

namespace Number

def exact : Number → Binary64
  | int n => .finite n
  | float x => x

def lt (a b : Number) : Bool := a.exact.lt b.exact

def same (a b : Number) : Bool := a.exact.same b.exact

/-- Equality in arithmetic: an undefined number equals nothing, not even
itself. -/
def equal (a b : Number) : Bool := a.same b && !a.exact.isUndefined

def toFloat? : Number → Option Binary64
  | int n =>
    match Binary64.round n with
    | .infinite _ => none
    | x => some x
  | float x => some x

/-! ## Arithmetic -/

/-- Integers are kept; otherwise both operands are taken as floating point
numbers. -/
def combine? (ints : Int → Int → Int) (floats : Binary64 → Binary64 → Binary64) :
    Number → Number → Option Number
  | int m, int n => some (int (ints m n))
  | a, b => do return float (floats (← a.toFloat?) (← b.toFloat?))

def add? : Number → Number → Option Number := combine? (· + ·) Binary64.add

def sub? : Number → Number → Option Number := combine? (· - ·) Binary64.sub

def mod? : Number → Number → Option Number := combine? Int.fmod Binary64.mod

/-- The lower bound of a range and a remainder by its width. -/
def within? (low high n : Number) : Option Number := do
  let width ← (← high.sub? low).add? (int 1)
  low.add? (← n.mod? width)

def text : Number → String
  | int n => toString n
  | float x => x.text

end Number

end FiniteAutomata
