import FiniteAutomata.Text.JsonString
import FiniteAutomata.Value.Written

/-!
# The canonical text of a value

JSON text that does not depend on the order of lists, sets and records: their
members are sorted by their own canonical texts. Tuples keep their order.
Every scalar carries the name of its type.
-/

namespace FiniteAutomata

namespace Json

def array (items : List String) : String := "[" ++ ",".intercalate items ++ "]"

def object (name body : String) : String :=
  "\x7b" ++ JsonString.text name ++ ":" ++ body ++ "\x7d"

def emptyObject : String := "\x7b\x7d"

end Json

def Binary64.jsonText : Binary64 → String
  | .infinite negative => if negative then "-Infinity" else "Infinity"
  | .undefined _ => "NaN"
  | x => x.text

def sortTexts (texts : List String) : List String := sortBy (fun a b => decide (a < b)) texts

namespace Value

def scalarText (typeName body : String) : String :=
  Json.object "__scalar__" (Json.array [JsonString.text typeName, body])

/-- Bytes are not JSON; their written form stands for them. -/
def writtenText (typeName : String) (written : List Char) : String :=
  Json.object "__repr__"
    (Json.array [JsonString.text "builtins", JsonString.text typeName, "0",
      JsonString.text (String.ofList written)])

def multisetText (texts : List String) : String :=
  Json.object "__multiset__" (Json.array (sortTexts texts))

def sortItems (items : List (String × String)) : List (String × String) :=
  sortBy (fun a b => decide (a.1 < b.1)) items

def recordText (items : List (String × String)) : String :=
  if items.isEmpty then Json.emptyObject
  else
    Json.object "__dict_items__"
      (Json.array ((sortItems items).map fun item => Json.array [item.1, item.2]))

mutual

def canonicalText : Value → String
  | null => scalarText "NoneType" "null"
  | bool b => scalarText "bool" (if b then "true" else "false")
  | int n => scalarText "int" (toString n)
  | float x => scalarText "float" x.jsonText
  | text s => scalarText "str" (JsonString.text s)
  | bytes bs => writtenText "bytes" (Quoted.bytes bs)
  | byteArray bs => writtenText "bytearray" (byteArraySpelling bs)
  | tuple xs => Json.object "__tuple__" (Json.array (canonicalTexts xs))
  | list xs => multisetText (canonicalTexts xs)
  | set xs => multisetText (canonicalTexts xs)
  | frozenSet xs => multisetText (canonicalTexts xs)
  | record items => recordText (canonicalItems items)

def canonicalTexts : List Value → List String
  | [] => []
  | x :: xs => canonicalText x :: canonicalTexts xs

def canonicalItems : List (Value × Value) → List (String × String)
  | [] => []
  | (k, v) :: items => (canonicalText k, canonicalText v) :: canonicalItems items

end

end Value

end FiniteAutomata
