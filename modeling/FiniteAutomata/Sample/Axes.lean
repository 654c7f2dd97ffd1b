import FiniteAutomata.Draft.Kind
import FiniteAutomata.Reading.Basic

/-!
# Axes of sampling

The ranges from which the features of a sampled draft are drawn.
-/

namespace FiniteAutomata

open Reading (next)

structure Axes where
  kinds : List Kind
  states : Int × Int
  alphabet : Int × Int
  transitions : Int × Int
  epsilon : Binary64 × Binary64
  final : Binary64 × Binary64
  deriving Inhabited

namespace Axes

def maxAlphabet : Nat := 26

def tenths (low high : Nat) : Binary64 × Binary64 := (.round (mkRat low 10), .round (mkRat high 10))

def standard : Axes where
  kinds := Kind.all
  states := (2, 6)
  alphabet := (1, 3)
  transitions := (0, 4)
  epsilon := tenths 1 4
  final := tenths 2 5

def statesName : String := "n_states_range"

def alphabetName : String := "alphabet_size_range"

def transitionsName : String := "transitions_per_state_range"

def epsilonName : String := "epsilon_prob_range"

def finalName : String := "final_prob_range"

/-! ## Truth values as bounds -/

def isBool : Value → Bool
  | .bool _ => true
  | _ => false

def hasBoolBound (v : Value) : Bool :=
  match v with
  | .list [low, high] => isBool low || isBool high
  | .tuple [low, high] => isBool low || isBool high
  | _ => false

def boolBound? (record : Value) : Option String :=
  [statesName, alphabetName, transitionsName].find? fun name =>
    (record.field? name).any hasBoolBound

/-! ## Rules between bounds -/

def orderProblem? (name low high : String) (reversed : Bool) : Option String :=
  if reversed then some (name ++ ": low (" ++ low ++ ") must be <= high (" ++ high ++ ")") else none

def intProblem? (name : String) (range : Int × Int) : Option String :=
  orderProblem? name (toString range.1) (toString range.2) (range.2 < range.1)

def floatProblem? (name : String) (range : Binary64 × Binary64) : Option String :=
  orderProblem? name range.1.text range.2.text (range.2.lt range.1)

def outsideUnit? (name : String) (range : Binary64 × Binary64) : Option String :=
  if range.1.lt (.finite 0) || (Binary64.finite 1).lt range.2 then
    some (name ++ ": values must be in [0.0, 1.0]")
  else none

def unless? (holds : Bool) (problem : String) : Option String := if holds then none else some problem

def problem? (x : Axes) : Option String :=
  [unless? (!x.kinds.isEmpty) "kinds must not be empty",
    intProblem? statesName x.states,
    intProblem? alphabetName x.alphabet,
    intProblem? transitionsName x.transitions,
    floatProblem? epsilonName x.epsilon,
    floatProblem? finalName x.final,
    unless? (1 ≤ x.states.1) (statesName ++ ": low must be >= 1"),
    unless? (1 ≤ x.alphabet.1) (alphabetName ++ ": low must be >= 1"),
    unless? (x.alphabet.2 ≤ maxAlphabet) (alphabetName ++ ": high must be <= " ++ toString maxAlphabet),
    unless? (0 ≤ x.transitions.1) (transitionsName ++ ": low must be >= 0"),
    outsideUnit? epsilonName x.epsilon,
    outsideUnit? finalName x.final].findSome? fun problem => problem

/-! ## Records -/

def readFields (v : Value) : Reading Axes :=
  Except.ok Axes.mk
    |> next (Reading.fieldOr "kinds" standard.kinds (Reading.list (Reading.named Kind.ofName?)) v)
    |> next (Reading.fieldOr statesName standard.states (Reading.pair Reading.int) v)
    |> next (Reading.fieldOr alphabetName standard.alphabet (Reading.pair Reading.int) v)
    |> next (Reading.fieldOr transitionsName standard.transitions (Reading.pair Reading.int) v)
    |> next (Reading.fieldOr epsilonName standard.epsilon (Reading.pair Reading.float) v)
    |> next (Reading.fieldOr finalName standard.final (Reading.pair Reading.float) v)

/-- Truth values are refused first; the rules between bounds are looked at
when every field could be read. -/
def read : Value → Reading Axes :=
  Reading.record fun v =>
    match boolBound? v with
    | some name => Reading.fail (.invalid (name ++ ": bool is not allowed for int range bounds"))
    | none =>
      match readFields v with
      | .error ds => .error ds
      | .ok x =>
        match x.problem? with
        | some problem => Reading.fail (.invalid problem)
        | none => .ok x

end Axes

end FiniteAutomata
