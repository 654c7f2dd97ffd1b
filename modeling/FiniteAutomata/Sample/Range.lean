import FiniteAutomata.Sample.Operand
import FiniteAutomata.Sample.Source

/-!
# Draws from ranges

The bounds of a range are included. Ranges may be given as values, so that a
fault can show their bounds as they were.
-/

namespace FiniteAutomata

namespace Sampling

variable {α : Type}

/-! ## Bounds -/

def bounds (range : Value) : Except Fault (Value × Value) :=
  match range.members? with
  | none => .error (.notPair range.typeName)
  | some [low, high] => .ok (low, high)
  | some (_ :: _ :: _) => .error (.tooMany 2)
  | some vs => .error (.tooFew 2 vs.length)

def checkOrder (name : String) (low high : Value) : Except Fault Unit := do
  if ← low.isAbove high then throw (.reversedRange name low high)

/-! ## Integers -/

def intRange (low high : Int) : Sampling Int :=
  if high < low then throw (.reversedRange "int_range" (.int low) (.int high)) else between low high

/-- One float among the bounds makes the result a float. -/
def numberBetween : Number → Number → Sampling Number
  | .int low, .int high => do return .int (← between low high)
  | low, high => do
    let d ← draw
    match Number.within? low high (.int d.number) with
    | some n => return n
    | none => throw .tooLarge

def valueBetween (low high : Value) : Sampling Value :=
  match low.toNumber?, high.toNumber? with
  | some m, some n => do return .ofNumber (← numberBetween m n)
  | _, _ => do
    -- the draw is taken before the bounds turn out to be no numbers
    let _ ← draw
    throw (low.noWidth high)

def valueRange (range : Value) : Sampling Value := do
  let (low, high) ← bounds range
  checkOrder "int_range" low high
  valueBetween low high

/-! ## Probabilities -/

def checkProbability (low high : Value) (lowNumber highNumber : Number) : Sampling Unit :=
  if lowNumber.lt (.int 0) || (Number.int 1).lt highNumber then throw (.probabilityOutside low high)
  else return ()

/-- Nothing is drawn when both bounds are the same. -/
def probabilityBetween (low high : Value) : Sampling Value := do
  checkOrder "prob_range" low high
  let lowNumber ← low.toNumber "<" "float"
  let highNumber ← high.toNumber ">" "float"
  checkProbability low high lowNumber highNumber
  if lowNumber.equal highNumber then return low
  match lowNumber.toFloat?, highNumber.toFloat? with
  | some x, some y => return .float (← uniform x y)
  | _, _ => throw .tooLarge

def probabilityRange (range : Value) : Sampling Value := do
  let (low, high) ← bounds range
  probabilityBetween low high

/-! ## Places -/

def pick [Inhabited α] (available : List α) (count : Int) : Sampling (List α) :=
  if count < 0 then throw (.negativeCount (.int count))
  else if available.length ≤ count.toNat then return available
  else chooseDistinct count.toNat available

/-- A count that is a float is enough for all places or for none. -/
def pickCounted (available count : Value) : Sampling (List Value) := do
  let n ← count.toNumber "<" "int"
  if n.lt (.int 0) then throw (.negativeCount count)
  let vs ← available.sized
  match n with
  | .int n => pick vs n
  | n =>
    if n.equal (.int vs.length) || (Number.int vs.length).lt n then return vs
    else throw (.notIndex count.typeName)

end Sampling

end FiniteAutomata
