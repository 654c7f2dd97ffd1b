import FiniteAutomata.Collection.Sorting
import FiniteAutomata.Text.Quoted
import FiniteAutomata.Value.Basic

/-!
# The written form of values and their canonical order

Values of all types stand in one order: by the name of the type, then numbers
of one type by value, then by the written form. The members of a set are
written as they are listed.
-/

namespace FiniteAutomata

structure OrderKey where
  typeName : String
  number : Number
  spelling : List Char

namespace OrderKey

def lt (a b : OrderKey) : Bool :=
  if a.typeName ≠ b.typeName then decide (a.typeName < b.typeName)
  else if a.number.same b.number then decide (a.spelling < b.spelling)
  else a.number.lt b.number

/-- Neither of two different undefined numbers is below the other, and still
they are not the same. -/
def same (a b : OrderKey) : Bool :=
  a.typeName == b.typeName && a.number.same b.number && a.spelling == b.spelling

def pairLt (a b : OrderKey × OrderKey) : Bool := if a.1.same b.1 then a.2.lt b.2 else a.1.lt b.1

end OrderKey

def commas : List (List Char) → List Char
  | [] => []
  | [x] => x
  | x :: xs => x ++ ',' :: ' ' :: commas xs

namespace Value

/-- The number that orders a value; a truth value is no number here. -/
def number : Value → Number
  | int n => .int n
  | float x => .float x
  | _ => .int 0

def openBrace : Char := '\x7b'

def closeBrace : Char := '\x7d'

def braced (cs : List Char) : List Char := openBrace :: cs ++ [closeBrace]

def tupleSpelling : List (List Char) → List Char
  | [x] => '(' :: x ++ [',', ')']
  | xs => '(' :: commas xs ++ [')']

def byteArraySpelling (bs : List UInt8) : List Char := "bytearray(".toList ++ Quoted.bytes bs ++ [')']

mutual

def spelling : Value → List Char
  | null => "None".toList
  | bool b => if b then "True".toList else "False".toList
  | int n => (toString n).toList
  | float x => x.text.toList
  | text s => Quoted.text s.toList
  | bytes bs => Quoted.bytes bs
  | byteArray bs => byteArraySpelling bs
  | tuple xs => tupleSpelling (spellings xs)
  | list xs => '[' :: commas (spellings xs) ++ [']']
  | set xs => if xs.isEmpty then "set()".toList else braced (commas (spellings xs))
  | frozenSet xs =>
    if xs.isEmpty then "frozenset()".toList else "frozenset(".toList ++ braced (commas (spellings xs)) ++ [')']
  | record items => braced (commas (itemSpellings items))

def spellings : List Value → List (List Char)
  | [] => []
  | x :: xs => spelling x :: spellings xs

def itemSpellings : List (Value × Value) → List (List Char)
  | [] => []
  | (k, v) :: items => (spelling k ++ ':' :: ' ' :: spelling v) :: itemSpellings items

end

def written (v : Value) : String := String.ofList v.spelling

def orderKey (v : Value) : OrderKey := ⟨v.typeName, v.number, v.spelling⟩

def canonicalOrder (xs : List Value) : List Value := sortOn orderKey OrderKey.lt xs

theorem spellings_eq_map (xs : List Value) : spellings xs = xs.map spelling := by
  induction xs with
  | nil => rfl
  | cons x xs ih => simp [spellings, ih]

end Value

end FiniteAutomata
