import FiniteAutomata.Fault
import FiniteAutomata.Value.Key

/-!
# Values as operands

Bounds and counts may be given as values of any type. Only some types have an
order, a difference or a length.
-/

namespace FiniteAutomata

namespace Value

/-! ## Order -/

def setMembers? : Value → Option (List Value)
  | set xs => some xs
  | frozenSet xs => some xs
  | _ => none

/-- The order of numbers and of sets; a set is above its proper subsets. -/
def isAboveFlat (a b : Value) : Except Fault Bool :=
  match a.toNumber?, b.toNumber?, a.setMembers?, b.setMembers? with
  | some m, some n, _, _ => .ok (n.lt m)
  | _, _, some xs, some ys => .ok (subsetOf ys xs && !subsetOf xs ys)
  | _, _, _, _ => .error (.incomparable ">" a.typeName b.typeName)

mutual

def isAbove : Value → Value → Except Fault Bool
  | text s, text t => .ok (decide (t < s))
  | bytes s, bytes t => .ok (decide (t < s))
  | bytes s, byteArray t => .ok (decide (t < s))
  | byteArray s, bytes t => .ok (decide (t < s))
  | byteArray s, byteArray t => .ok (decide (t < s))
  | list xs, list ys => isAboveAll xs ys
  | tuple xs, tuple ys => isAboveAll xs ys
  | a, b => isAboveFlat a b

def isAboveAll : List Value → List Value → Except Fault Bool
  | [], _ => .ok false
  | _ :: _, [] => .ok true
  | x :: xs, y :: ys => if x == y then isAboveAll xs ys else isAbove x y

end

/-! ## Numbers and lengths -/

def toNumber (v : Value) (relation other : String) : Except Fault Number :=
  match v.toNumber? with
  | some n => .ok n
  | none => .error (.incomparable relation v.typeName other)

def index (v : Value) : Except Fault Int :=
  match v.toNumber? with
  | some (.int n) => .ok n
  | _ => .error (.notIndex v.typeName)

def sized (v : Value) : Except Fault (List Value) :=
  match v.members? with
  | some xs => .ok xs
  | none => .error (.noLength v.typeName)

/-- Why no width can be made of two bounds that are not numbers: sets have a
difference, but no successor. -/
def noWidth (low high : Value) : Fault :=
  if low.setMembers?.isSome && high.setMembers?.isSome then .unsupported "+" high.typeName "int"
  else .unsupported "-" high.typeName low.typeName

end Value

end FiniteAutomata
