/-!
# Defects of an untyped record

What keeps a record from being read: a problem and the place where it stands.
-/

namespace FiniteAutomata

inductive Step where
  | field (name : String)
  | index (i : Nat)
  deriving DecidableEq

inductive Problem where
  | missing
  | notRecord
  | notHashable
  | memberNotHashable
  | notList
  | notFrozenSet
  | notTuple
  | tooLong
  | notListed
  | notText
  | notUnicode
  | notInt
  | fractional
  | notFinite
  | oversized
  | unreadableInt
  | negative
  | notFloat
  | unreadableFloat
  | invalid (reason : String)
  deriving DecidableEq

namespace Problem

def code : Problem → String
  | missing => "missing"
  | notRecord => "model_type"
  | notHashable => "is_hashable"
  | memberNotHashable => "set_item_not_hashable"
  | notList => "list_type"
  | notFrozenSet => "frozen_set_type"
  | notTuple => "tuple_type"
  | tooLong => "too_long"
  | notListed => "enum"
  | notText => "string_type"
  | notUnicode => "string_unicode"
  | notInt => "int_type"
  | fractional => "int_from_float"
  | notFinite => "finite_number"
  | oversized => "int_parsing_size"
  | unreadableInt => "int_parsing"
  | negative => "greater_than_equal"
  | notFloat => "float_type"
  | unreadableFloat => "float_parsing"
  | invalid _ => "value_error"

/-- Only a rule between fields carries a text. -/
def detail? : Problem → Option String
  | invalid reason => some ("Value error, " ++ reason)
  | _ => none

end Problem

structure Defect where
  place : List Step
  problem : Problem
  deriving DecidableEq

def Defect.within (step : Step) (d : Defect) : Defect := { d with place := step :: d.place }

end FiniteAutomata
