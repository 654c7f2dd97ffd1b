/-!
# Binary floating point on 64 bits

A finite number is held as the rational it stands for. Every operation
computes exactly and rounds once, to the nearest representable number; a tie
goes to the even significand.
-/

namespace FiniteAutomata

/-- A negative zero is kept apart from the rational zero. Two undefined
numbers are the same one only when their tags agree. -/
inductive Binary64 where
  | negativeZero
  | finite (q : Rat)
  | infinite (negative : Bool)
  | undefined (tag : Nat)
  deriving DecidableEq, Inhabited

namespace Binary64

/-! ## Rounding -/

def twoPow (e : Int) : Rat :=
  if 0 ≤ e then (Nat.pow 2 e.toNat : Rat) else mkRat 1 (Nat.pow 2 (-e).toNat)

/-- The `e` with `2 ^ e ≤ q < 2 ^ (e + 1)`, for a positive `q`. -/
def magnitude (q : Rat) : Int :=
  let e := (q.num.natAbs.log2 : Int) - q.den.log2
  if twoPow e ≤ q then e else e - 1

def halfEven (q : Rat) : Int :=
  let low := q.floor
  let excess := q - low
  if excess < mkRat 1 2 then low
  else if mkRat 1 2 < excess then low + 1
  else if low % 2 = 0 then low else low + 1

/-- The distance between neighbours near a positive `q`: 53 significant bits,
but at least `2 ^ -1074`. -/
def spacing (q : Rat) : Rat :=
  twoPow (max (magnitude q - 52) (-1074))

/-- A magnitude from `2 ^ 1024` on is infinite; one that rounds to zero keeps
its sign. -/
def round (q : Rat) : Binary64 :=
  if q = 0 then finite 0
  else
    let negative := decide (q < 0)
    let size := if negative then -q else q
    let unit := spacing size
    let rounded := (halfEven (size / unit) : Rat) * unit
    if twoPow 1024 ≤ rounded then infinite negative
    else if rounded = 0 then (if negative then negativeZero else finite 0)
    else finite (if negative then -rounded else rounded)

/-- A finite number is held as a rational, which is one of those that rounding
keeps. -/
def IsRepresentable : Binary64 → Prop
  | finite q => round q = finite q
  | _ => True

instance : DecidablePred IsRepresentable
  | negativeZero => inferInstanceAs (Decidable True)
  | finite q => inferInstanceAs (Decidable (round q = finite q))
  | infinite _ => inferInstanceAs (Decidable True)
  | undefined _ => inferInstanceAs (Decidable True)

/-! ## Order -/

def toRat? : Binary64 → Option Rat
  | negativeZero => some 0
  | finite q => some q
  | _ => none

def lt : Binary64 → Binary64 → Bool
  | undefined _, _ => false
  | _, undefined _ => false
  | infinite a, infinite b => a && !b
  | infinite a, _ => a
  | _, infinite b => !b
  | a, b => decide (a.toRat?.getD 0 < b.toRat?.getD 0)

/-- Equality of values: the two zeros agree, and an undefined number agrees
with itself alone. -/
def same : Binary64 → Binary64 → Bool
  | undefined s, undefined t => s == t
  | infinite a, infinite b => a == b
  | a, b =>
    match a.toRat?, b.toRat? with
    | some p, some q => p == q
    | _, _ => false

def isUndefined : Binary64 → Bool
  | undefined _ => true
  | _ => false

/-! ## Arithmetic -/

def isNegative : Binary64 → Bool
  | negativeZero => true
  | finite q => decide (q < 0)
  | infinite negative => negative
  | undefined _ => false

def neg : Binary64 → Binary64
  | negativeZero => finite 0
  | finite q => if q = 0 then negativeZero else finite (-q)
  | infinite negative => infinite (!negative)
  | undefined tag => undefined tag

def add : Binary64 → Binary64 → Binary64
  | undefined tag, _ => undefined tag
  | _, undefined tag => undefined tag
  | infinite a, infinite b => if a = b then infinite a else undefined 0
  | infinite a, _ => infinite a
  | _, infinite b => infinite b
  -- any other sum that is zero is positive
  | negativeZero, negativeZero => negativeZero
  | a, b => round (a.toRat?.getD 0 + b.toRat?.getD 0)

def sub (a b : Binary64) : Binary64 := add a b.neg

def mul : Binary64 → Binary64 → Binary64
  | undefined tag, _ => undefined tag
  | _, undefined tag => undefined tag
  | infinite a, b =>
    if b.toRat? = some 0 then undefined 0 else infinite (a != b.isNegative)
  | a, infinite b =>
    if a.toRat? = some 0 then undefined 0 else infinite (a.isNegative != b)
  | a, b =>
    let product := a.toRat?.getD 0 * b.toRat?.getD 0
    if product = 0 then (if a.isNegative != b.isNegative then negativeZero else finite 0)
    else round product

/-- The remainder, between zero and the divisor. A remainder of zero takes the
sign of the divisor, and there is none on division by zero. -/
def mod : Binary64 → Binary64 → Binary64
  | undefined tag, _ => undefined tag
  | _, undefined tag => undefined tag
  | infinite _, _ => undefined 0
  | a, infinite b =>
    if a.toRat? = some 0 then (if b then negativeZero else finite 0)
    else if a.isNegative = b then a
    else infinite b
  | a, b =>
    let dividend := a.toRat?.getD 0
    let divisor := b.toRat?.getD 0
    let remainder := dividend - divisor * (dividend / divisor).floor
    if divisor = 0 then undefined 0
    else if remainder = 0 then (if b.isNegative then negativeZero else finite 0)
    else round remainder

end Binary64

end FiniteAutomata
