import FiniteAutomata.Value.Written

/-!
# Limits of the runtime

A whole number is written with so many digits at most, and calls nest only so
deep. Whoever goes through a value makes some calls on the way into each part
of it, so a value may nest too deep to be written, encoded or copied. A
written form that is missing is replaced in the keys of the canonical order by
the name of the error.
-/

namespace FiniteAutomata

/-- The most digits of a whole number, and how many calls may still nest. -/
structure Limits where
  digits : Nat
  calls : Nat

/-- What is left of a thousand calls when an operation starts. -/
def Limits.usual : Limits := ⟨4300, 960⟩

inductive Excess where
  | digits
  | calls
  deriving DecidableEq

def Excess.errorName : Excess → String
  | digits => "ValueError"
  | calls => "RecursionError"

/-- The calls on the way into a part of each kind, and whether whole numbers
are written. -/
structure Passage where
  tuple : Nat
  list : Nat
  set : Nat
  record : Nat
  writes : Bool

namespace Passage

/-- A set is written as the list of its members. -/
def writing : Passage := ⟨1, 1, 2, 1, true⟩

/-- Encoding takes a value apart first and writes the texts of its parts
afterwards. -/
def encoding : Passage := ⟨2, 2, 2, 3, true⟩

/-- A set is made anew from a copy of the list of its members. -/
def copying : Passage := ⟨3, 2, 5, 2, false⟩

end Passage

namespace Value

def entered (cost calls : Nat) (inside : Nat → Option Excess) : Option Excess :=
  if calls < cost then some .calls else inside (calls - cost)

section
variable (p : Passage) (digits : Nat)

mutual

/-- The limit that is met first on the way through a value. -/
def excess? (calls : Nat) : Value → Option Excess
  | int n => if p.writes && decide (Nat.pow 10 digits ≤ n.natAbs) then some .digits else none
  | tuple xs => partsExcess? p.tuple calls xs
  | list xs => partsExcess? p.list calls xs
  | set xs => partsExcess? p.set calls xs
  | frozenSet xs => partsExcess? p.set calls xs
  | record items => itemsExcess? calls items
  | _ => none

def partsExcess? (cost calls : Nat) : List Value → Option Excess
  | [] => none
  | x :: xs => (entered cost calls fun left => excess? left x).or (partsExcess? cost calls xs)

def itemsExcess? (calls : Nat) : List (Value × Value) → Option Excess
  | [] => none
  | (k, v) :: items =>
    (entered p.record calls fun left => (excess? left k).or (excess? left v)).or (itemsExcess? calls items)

end

end

end Value

/-! ## Keys that are always made -/

namespace Limits

variable (limits : Limits)

def excess? (p : Passage) (v : Value) : Option Excess := v.excess? p limits.digits limits.calls

def spelling (v : Value) : List Char :=
  match limits.excess? .writing v with
  | none => v.spelling
  | some e => ("<repr_error:" ++ e.errorName ++ ">").toList

def orderKey (v : Value) : OrderKey := ⟨v.typeName, v.number, limits.spelling v⟩

def canonicalOrder (xs : List Value) : List Value := sortOn limits.orderKey OrderKey.lt xs

end Limits

end FiniteAutomata
