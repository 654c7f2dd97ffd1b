/-!
# Kinds of automaton
-/

namespace FiniteAutomata

inductive Kind where
  | dfa
  | nfa
  | epsilonNfa
  deriving DecidableEq, Inhabited

namespace Kind

def all : List Kind := [dfa, nfa, epsilonNfa]

def name : Kind → String
  | dfa => "dfa"
  | nfa => "nfa"
  | epsilonNfa => "epsilon_nfa"

def ofName? (s : String) : Option Kind := all.find? (·.name = s)

theorem ofName?_name (k : Kind) : ofName? k.name = some k := by
  cases k <;> decide

end Kind

end FiniteAutomata
