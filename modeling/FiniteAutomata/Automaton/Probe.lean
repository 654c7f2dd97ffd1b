import FiniteAutomata.Automaton.Determinize
import FiniteAutomata.Automaton.Run
import FiniteAutomata.Sample.Operand
import FiniteAutomata.Sample.Source

/-!
# Probe words

Words that show what an automaton does: all short ones, a shortest accepted
one, random ones, and ones on which every branch dies.
-/

namespace FiniteAutomata

abbrev Word := List Value

/-! ## The shortest accepted word -/

structure Reached where
  configuration : List Value
  word : Word
  deriving Inhabited

/-- What counts is the configuration as a set. -/
instance : BEq Reached := ⟨fun a b => sameMembers a.configuration b.configuration⟩

namespace Automaton

variable (A : Automaton)

def successorsOfReached (r : Reached) : List Reached :=
  A.symbols.filterMap fun a =>
    let following := A.step r.configuration a
    if following.isEmpty then none else some ⟨following, r.word ++ [a]⟩

def isAccepting (r : Reached) : Bool := meets r.configuration A.finals

def searched : List Reached :=
  let start : List Reached := [⟨A.initialConfiguration, []⟩]
  visit A.successorsOfReached A.isAccepting (listsBound A.labelCount) start start

def shortestAccepted? : Option Word := (A.searched.find? A.isAccepting).map Reached.word

end Automaton

/-! ## Probes -/

inductive Tag where
  | typical
  | boundary
  | coverage
  | adversarial
  deriving DecidableEq, Inhabited

namespace Tag

def name : Tag → String
  | typical => "typical"
  | boundary => "boundary"
  | coverage => "coverage"
  | adversarial => "adversarial"

def ofName? (s : String) : Option Tag := [typical, boundary, coverage, adversarial].find? (·.name = s)

end Tag

structure Probe where
  word : Word
  verdict : Verdict
  tag : Tag
  deriving Inhabited

namespace Automaton

variable (A : Automaton)

def addProbe (tag : Tag) (probes : List Probe) (w : Word) : List Probe :=
  if probes.any fun p => p.tag = tag && p.word == w then probes else probes ++ [⟨w, A.verdict w, tag⟩]

def addProbes (tag : Tag) (words : List Word) (probes : List Probe) : List Probe :=
  words.foldl (A.addProbe tag) probes

def coverageWords : List Word := [] :: A.symbols.map fun a => [a]

def boundaryWords : List Word :=
  match A.shortestAccepted? with
  | none => []
  | some w => w :: (A.symbols.getLast?.toList.map fun a => w ++ [a])

/-- The first symbol after which nothing is left of a configuration. -/
def deadSymbol? (w : Word) : Option Value :=
  match A.symbols.find? fun a => (A.step (A.configuration w) a).isEmpty with
  | some .null => none
  | found => found

def adversarialWords : List Word :=
  let start := A.shortestAccepted?.getD []
  match A.deadSymbol? start with
  | none => []
  | some a => (start ++ [a]) :: (A.symbols.head?.toList.map fun b => start ++ [a, b])

def randomWord : Nat → Sampling Word
  | 0 => return []
  | length + 1 => do
    let a ← Sampling.choose A.symbols
    let w ← randomWord length
    return a :: w

def randomWords (maxLength : Nat) : Nat → Sampling (List Word)
  | 0 => return []
  | count + 1 => do
    let length ← Sampling.between 0 maxLength
    let w ← A.randomWord length.toNat
    let ws ← randomWords maxLength count
    return w :: ws

def typicalWords (maxLength count : Nat) : Sampling (List Word) :=
  if A.symbols.isEmpty then return [] else A.randomWords maxLength count

def probes (maxLength count : Int) : Sampling (List Probe) := do
  if maxLength < 0 then throw (.negativeLength (.int maxLength))
  -- the draws come first, wherever their words are listed
  let typical ← A.typicalWords maxLength.toNat count.toNat
  return A.addProbes .coverage A.coverageWords []
    |> A.addProbes .boundary A.boundaryWords
    |> A.addProbes .typical typical
    |> A.addProbes .adversarial A.adversarialWords

/-- Length and count are used as integers only when words are drawn. -/
def probesOf (maxLength count : Value) : Sampling (List Probe) := do
  let limit ← maxLength.toNumber "<" "int"
  if limit.lt (.int 0) then throw (.negativeLength maxLength)
  if A.symbols.isEmpty then A.probes 0 0
  else
    let n ← count.index
    if n ≤ 0 then A.probes 0 n else A.probes (← maxLength.index) n

end Automaton

end FiniteAutomata
