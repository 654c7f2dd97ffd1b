import FiniteAutomata.Number.Basic

/-!
# Values

Labels of states and symbols, and the untyped records that drafts are read
from. The members of a set and the keys of a record are distinct and stand in
the order in which they are listed.
-/

namespace FiniteAutomata

inductive Value where
  | null
  | bool (b : Bool)
  | int (n : Int)
  | float (x : Binary64)
  | text (s : String)
  | bytes (bs : List UInt8)
  | byteArray (bs : List UInt8)
  | tuple (xs : List Value)
  | frozenSet (xs : List Value)
  | list (xs : List Value)
  | set (xs : List Value)
  | record (items : List (Value × Value))
  deriving Inhabited

namespace Value

def typeName : Value → String
  | null => "NoneType"
  | bool _ => "bool"
  | int _ => "int"
  | float _ => "float"
  | text _ => "str"
  | bytes _ => "bytes"
  | byteArray _ => "bytearray"
  | tuple _ => "tuple"
  | frozenSet _ => "frozenset"
  | list _ => "list"
  | set _ => "set"
  | record _ => "dict"

/-! ## Values that can be members of a set -/

def isMutable : Value → Bool
  | byteArray _ => true
  | list _ => true
  | set _ => true
  | record _ => true
  | _ => false

mutual

/-- The type of the first part, from left to right, that can be no member of a
set. -/
def unhashable? : Value → Option String
  | byteArray _ => some "bytearray"
  | list _ => some "list"
  | set _ => some "set"
  | record _ => some "dict"
  | tuple xs => firstUnhashable? xs
  | _ => none

def firstUnhashable? : List Value → Option String
  | [] => none
  | x :: xs => (unhashable? x).or (firstUnhashable? xs)

end

def isHashable (v : Value) : Bool := v.unhashable?.isNone

/-! ## Views -/

/-- A truth value counts as 0 or 1. -/
def toNumber? : Value → Option Number
  | bool b => some (.int (if b then 1 else 0))
  | int n => some (.int n)
  | float x => some (.float x)
  | _ => none

def ofNumber : Number → Value
  | .int n => int n
  | .float x => float x

def isText (s : String) : Value → Bool
  | text t => s == t
  | _ => false

def field? (name : String) : Value → Option Value
  | record items => (items.find? fun item => item.1.isText name).map Prod.snd
  | _ => none

/-- The elements, the characters of a text or the keys of a record. -/
def members? : Value → Option (List Value)
  | tuple xs => some xs
  | frozenSet xs => some xs
  | list xs => some xs
  | set xs => some xs
  | text s => some (s.toList.map fun c => text (String.singleton c))
  | bytes bs => some (bs.map fun b => int b.toNat)
  | byteArray bs => some (bs.map fun b => int b.toNat)
  | record items => some (items.map Prod.fst)
  | _ => none

end Value

end FiniteAutomata
