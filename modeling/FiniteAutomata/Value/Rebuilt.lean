import FiniteAutomata.Value.Basic

/-!
# Values that are made anew

A copy of a value is made of copies of its parts. Sequences and records keep
their order, but the members of a set may be listed in another one.
-/

namespace FiniteAutomata

namespace Value

mutual

/-- The second value is a copy of the first one. -/
def Rebuilt : Value → Value → Prop
  | tuple xs, w => ∃ ys, RebuiltAll xs ys ∧ w = tuple ys
  | list xs, w => ∃ ys, RebuiltAll xs ys ∧ w = list ys
  | set xs, w => ∃ ys zs, RebuiltAll xs ys ∧ ys.Perm zs ∧ w = set zs
  | frozenSet xs, w => ∃ ys zs, RebuiltAll xs ys ∧ ys.Perm zs ∧ w = frozenSet zs
  | record items, w => ∃ copies, RebuiltItems items copies ∧ w = record copies
  | v, w => w = v

def RebuiltAll : List Value → List Value → Prop
  | [], ys => ys = []
  | x :: xs, ys => ∃ y rest, Rebuilt x y ∧ RebuiltAll xs rest ∧ ys = y :: rest

def RebuiltItems : List (Value × Value) → List (Value × Value) → Prop
  | [], copies => copies = []
  | (k, v) :: items, copies => ∃ w rest, Rebuilt v w ∧ RebuiltItems items rest ∧ copies = (k, w) :: rest

end

mutual

/-- No set with two members anywhere, so there is one order to list it in. -/
def hasOneListing : Value → Bool
  | tuple xs => haveOneListing xs
  | list xs => haveOneListing xs
  | set xs => decide (xs.length ≤ 1) && haveOneListing xs
  | frozenSet xs => decide (xs.length ≤ 1) && haveOneListing xs
  | record items => itemsHaveOneListing items
  | _ => true

def haveOneListing : List Value → Bool
  | [] => true
  | x :: xs => hasOneListing x && haveOneListing xs

def itemsHaveOneListing : List (Value × Value) → Bool
  | [] => true
  | (_, v) :: items => hasOneListing v && itemsHaveOneListing items

end

end Value

end FiniteAutomata
