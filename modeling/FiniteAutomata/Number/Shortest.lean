import FiniteAutomata.Number.Binary64

/-!
# The shortest decimal text of a floating point number

The text has the fewest digits that read back as the number and, among those,
the nearest ones. It is positional from `10 ^ -4` up to `10 ^ 16` and has an
exponent outside that range.
-/

namespace FiniteAutomata

structure Decimal where
  digits : Nat
  exponent : Int
  deriving DecidableEq, Inhabited

namespace Decimal

def tenPow (e : Int) : Rat :=
  if 0 ≤ e then (Nat.pow 10 e.toNat : Rat) else mkRat 1 (Nat.pow 10 (-e).toNat)

def value (d : Decimal) : Rat := (d.digits : Rat) * tenPow d.exponent

def digitCount (n : Nat) : Nat := (Nat.toDigits 10 n).length

/-- The `e` with `10 ^ e ≤ q < 10 ^ (e + 1)`, for a positive `q`. -/
def magnitude (q : Rat) : Int :=
  let e := (digitCount q.num.natAbs : Int) - digitCount q.den
  if tenPow e ≤ q then e else e - 1

/-! ## Choice of digits -/

def neighbours (q : Rat) (exponent : Int) : Decimal × Decimal :=
  let low := (q / tenPow exponent).floor.toNat
  (⟨low, exponent⟩, ⟨low + 1, exponent⟩)

def readsBack (q : Rat) (d : Decimal) : Bool :=
  decide (Binary64.round d.value = .finite q)

/-- Of the two neighbours with `count` digits, the nearest that reads back; a
tie goes to the even one. -/
def withDigits? (q : Rat) (count : Nat) : Option Decimal :=
  let (low, high) := neighbours q (magnitude q + 1 - count)
  let below := q - low.value
  let above := high.value - q
  if readsBack q low && (below < above || (below == above && low.digits % 2 == 0) || !readsBack q high) then
    some low
  else if readsBack q high then some high
  else none

def shortest (q : Rat) : Decimal :=
  ((List.range 17).findSome? fun n => withDigits? q (n + 1)).getD (neighbours q (magnitude q - 16)).1

/-! ## Layout -/

def significant (d : Decimal) : List Char :=
  ((Nat.toDigits 10 d.digits).reverse.dropWhile (· == '0')).reverse

def zeros (n : Nat) : List Char := List.replicate n '0'

/-- Positional text: `point` digits stand before the point. -/
def positional (digits : List Char) (point : Int) : List Char :=
  if point ≤ 0 then '0' :: '.' :: zeros (-point).toNat ++ digits
  else if digits.length ≤ point.toNat then digits ++ zeros (point.toNat - digits.length) ++ ['.', '0']
  else digits.take point.toNat ++ '.' :: digits.drop point.toNat

/-- One digit before the point, and an exponent of at least two digits after
its sign. -/
def scientific (digits : List Char) (exponent : Int) : List Char :=
  let fraction := digits.drop 1
  let size := Nat.toDigits 10 exponent.natAbs
  digits.take 1 ++ (if fraction.isEmpty then [] else '.' :: fraction) ++
    'e' :: (if exponent < 0 then '-' else '+') :: zeros (2 - size.length) ++ size

def layout (d : Decimal) : List Char :=
  let digits := d.significant
  let point := (digitCount d.digits : Int) + d.exponent
  if -4 < point && point ≤ 16 then positional digits point
  else scientific digits (point - 1)

end Decimal

def Binary64.positiveText (q : Rat) : List Char := (Decimal.shortest q).layout

def Binary64.text : Binary64 → String
  | .negativeZero => "-0.0"
  | .finite q =>
    if q = 0 then "0.0"
    else if q < 0 then String.ofList ('-' :: positiveText (-q))
    else String.ofList (positiveText q)
  | .infinite negative => if negative then "-inf" else "inf"
  | .undefined _ => "nan"

end FiniteAutomata
