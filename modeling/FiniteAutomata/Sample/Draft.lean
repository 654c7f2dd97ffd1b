import FiniteAutomata.Automaton.Run
import FiniteAutomata.Sample.Axes
import FiniteAutomata.Sample.Range

/-!
# Sampled drafts

States are numbers from zero on and symbols the first letters of the alphabet.
Kind, sizes and probabilities are drawn first, then the final states, then the
edges state by state.
-/

namespace FiniteAutomata

structure Sampled where
  draft : Draft
  trace : List TraceStep
  deriving Inhabited

namespace Sampling

def stateLabels (n : Int) : List Value := (List.range n.toNat).map fun i => .int (Int.ofNat i)

def letter (i : Nat) : String := String.singleton (Char.ofNat (97 + i))

def letters (n : Int) : List String := (List.range n.toNat).map letter

def probability (range : Binary64 × Binary64) : Sampling Binary64 := do
  let p ← probabilityBetween (.float range.1) (.float range.2)
  return (p.toNumber?.bind Number.toFloat?).getD (.finite 0)

/-! ## Final states -/

def keepEach (p : Binary64) : List Value → Sampling (List Value)
  | [] => return []
  | q :: qs => do
    let u ← unit
    let kept ← keepEach p qs
    return if u.lt p then q :: kept else kept

def finalStates (p : Binary64) (states : List Value) : Sampling (List Value) := do
  let kept ← keepEach p states
  -- one state is final whatever the probability
  if kept.isEmpty then pick states 1 else return kept

/-! ## Edges -/

def edgeSymbol (kind : Kind) (alphabet : List Value) (p : Binary64) : Sampling Value :=
  if kind = .epsilonNfa then do
    let u ← unit
    if u.lt p then return epsilon else choose alphabet
  else choose alphabet

def edgesFrom (kind : Kind) (states alphabet : List Value) (p : Binary64) (source : Value) :
    Nat → Sampling (List Transition)
  | 0 => return []
  | count + 1 => do
    let target ← choose states
    let symbol ← edgeSymbol kind alphabet p
    let others ← edgesFrom kind states alphabet p source count
    return ⟨source, symbol, target⟩ :: others

def edges (kind : Kind) (states alphabet : List Value) (range : Int × Int) (p : Binary64) :
    List Value → Sampling (List (Value × List Transition))
  | [] => return []
  | source :: sources => do
    let count ← intRange range.1 range.2
    let own ← edgesFrom kind states alphabet p source count.toNat
    let others ← edges kind states alphabet range p sources
    return (source, own) :: others

/-! ## Deterministic drafts -/

def hasMove (own : List Transition) (symbol : Value) : Bool := own.any fun t => t.symbol == symbol

/-- Of the edges of a source, the first with each symbol. -/
def firstMoves (own : List Transition) : List Transition :=
  own.foldl (fun kept t => if hasMove kept t.symbol then kept else kept ++ [t]) []

/-- Every symbol on which a source has no edge gets one half of the time. -/
def missingMoves (states : List Value) (source : Value) (own : List Transition) :
    List Value → Sampling (List Transition)
  | [] => return []
  | symbol :: symbols =>
    if hasMove own symbol then missingMoves states source own symbols
    else do
      let u ← unit
      if u.lt (.finite (mkRat 1 2)) then missingMoves states source own symbols
      else do
        let target ← choose states
        let others ← missingMoves states source own symbols
        return ⟨source, symbol, target⟩ :: others

def allMissingMoves (states alphabet : List Value) :
    List (Value × List Transition) → Sampling (List Transition)
  | [] => return []
  | (source, own) :: groups => do
    let added ← missingMoves states source own alphabet
    let others ← allMissingMoves states alphabet groups
    return added ++ others

def allEdges (kind : Kind) (states alphabet : List Value) (range : Int × Int) (p : Binary64) :
    Sampling (List Transition) := do
  let groups ← edges kind states alphabet range p states
  if kind = .dfa then
    -- the first edge under a key stays, and some of the others are filled in
    let firsts := groups.map fun group => (group.1, firstMoves group.2)
    let added ← allMissingMoves states alphabet firsts
    return firsts.flatMap Prod.snd ++ added
  else return groups.flatMap Prod.snd

/-! ## The whole draft -/

def draftTrace (d : Draft) (names : List String) : List TraceStep :=
  [⟨"sample_kind", "Kind: " ++ d.kind.name, .text d.kind.name⟩,
    ⟨"sample_n_states", "State count: " ++ toString d.states.length, .int d.states.length⟩,
    ⟨"sample_alphabet", "Alphabet: " ++ String.join names, .list d.alphabet⟩,
    ⟨"sample_final_states", "Final states: " ++ (Value.list d.finals).written, .list d.finals⟩,
    ⟨"sample_transition_count", "Transition count: " ++ toString d.transitions.length,
      .int d.transitions.length⟩]

def draft (axes : Axes) : Sampling Sampled := do
  let kind ← choose axes.kinds
  let stateCount ← intRange axes.states.1 axes.states.2
  let alphabetSize ← intRange axes.alphabet.1 axes.alphabet.2
  let epsilonProbability ← probability axes.epsilon
  let finalProbability ← probability axes.final
  let states := stateLabels stateCount
  let names := letters alphabetSize
  let alphabet := names.map Value.text
  let finals ← finalStates finalProbability states
  let transitions ← allEdges kind states alphabet axes.transitions epsilonProbability
  let d : Draft := ⟨kind, states, alphabet, .int 0, finals, transitions⟩
  return ⟨d, draftTrace d names⟩

end Sampling

end FiniteAutomata
