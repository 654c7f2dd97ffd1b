import FiniteAutomata.Collection.Distinct
import FiniteAutomata.Collection.Sorting
import FiniteAutomata.Value.Basic

/-!
# Issues of a draft
-/

namespace FiniteAutomata

inductive Severity where
  | error
  | warning
  deriving DecidableEq, Inhabited

namespace Severity

def name : Severity → String
  | error => "error"
  | warning => "warning"

def ofName? (s : String) : Option Severity := [error, warning].find? (·.name = s)

end Severity

namespace Issue

inductive Code where
  | unreadable
  | reservedSymbol
  | undeclaredReference
  | unreachableState
  | noFinalStateReachable
  | unreachableFinalState
  | nonDeterministic
  deriving DecidableEq, Inhabited

def Code.name : Code → String
  | unreadable => "SPEC_DESERIALIZE_ERROR"
  | reservedSymbol => "RESERVED_SYMBOL"
  | undeclaredReference => "UNDECLARED_REFERENCE"
  | unreachableState => "UNREACHABLE_STATE"
  | noFinalStateReachable => "NO_FINAL_STATE_REACHABLE"
  | unreachableFinalState => "UNREACHABLE_FINAL_STATE"
  | nonDeterministic => "NON_DETERMINISTIC_TRANSITION"

inductive Part where
  | source
  | symbol
  | target
  deriving DecidableEq, Inhabited

def Part.name : Part → String
  | source => "source"
  | symbol => "symbol"
  | target => "target"

inductive Location where
  | draft
  | symbol (i : Nat)
  | state (i : Nat)
  | initial
  | finals
  | final (i : Nat)
  | edge (i : Nat)
  | edgePart (i : Nat) (part : Part)
  deriving DecidableEq, Inhabited

def indexed (name : String) (i : Nat) : String := name ++ "[" ++ toString i ++ "]"

def Location.text : Location → String
  | draft => "spec"
  | symbol i => indexed "alphabet" i
  | state i => indexed "states" i
  | initial => "initial_state"
  | finals => "final_states"
  | final i => indexed "final_states" i
  | edge i => indexed "transitions" i
  | edgePart i part => indexed "transitions" i ++ "." ++ part.name

end Issue

/-- `state` and `symbol` are `null` when no label is at fault. -/
structure Issue where
  code : Issue.Code
  severity : Severity
  message : String
  location : Issue.Location
  automatonId : Option String
  state : Value
  symbol : Value
  deriving Inhabited

namespace Issue

def isError (i : Issue) : Bool := i.severity = .error

def isWarning (i : Issue) : Bool := i.severity = .warning

/-- An issue of one check, which tells everything under one code. -/
structure IsTold (i : Issue) (code : Code) (severity : Severity) : Prop where
  code : i.code = code
  severity : i.severity = severity

theorem IsTold.isError {i : Issue} {code : Code} (h : i.IsTold code .error) : i.isError = true := by
  simp [Issue.isError, h.severity]

def about (id : String) (i : Issue) : Issue := { i with automatonId := some id }

def throughFirstError : List Issue → List Issue
  | [] => []
  | i :: is => if i.isError then [i] else i :: throughFirstError is

def codeNames (issues : List Issue) : List String :=
  sortBy (fun a b => decide (a < b)) (distinct (issues.map (·.code.name)))

/-- At most three errors are told, and the number of the others. -/
def summary (issues : List Issue) : String :=
  let errors := issues.filter isError
  let told := (errors.take 3).map fun i => i.code.name ++ ": " ++ i.message
  let others := errors.length - 3
  "; ".intercalate told ++ (if others = 0 then "" else "; ... (" ++ toString others ++ " more)")

end Issue

end FiniteAutomata
