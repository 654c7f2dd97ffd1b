import FiniteAutomata.Draft.Issues
import FiniteAutomata.Fault

/-!
# Checked automata

A draft whose labels can all be members of sets and which is sound, together
with its identity and the tables of its edges, each made once.
-/

namespace FiniteAutomata

structure Automaton where
  draft : Draft
  hashable : draft.isHashable = true
  sound : draft.isSound = true
  id : String
  moves : Rows (Value × Value)
  silent : Rows Value
  id_eq : id = draft.id
  moves_eq : moves = FiniteAutomata.moves draft.transitions
  silent_eq : silent = silentMoves draft.transitions

namespace Automaton

def ofDraft (d : Draft) (hashable : d.isHashable = true) (sound : d.isSound = true) : Automaton where
  draft := d
  hashable := hashable
  sound := sound
  id := d.id
  moves := FiniteAutomata.moves d.transitions
  silent := silentMoves d.transitions
  id_eq := rfl
  moves_eq := rfl
  silent_eq := rfl

def ofDraft? (d : Draft) : Option Automaton :=
  if h : d.isHashable = true ∧ d.isSound = true then some (ofDraft d h.1 h.2) else none

theorem ofDraft?_draft (A : Automaton) : ofDraft? A.draft = some A := by
  obtain ⟨d, hh, hs, i, m, s, rfl, rfl, rfl⟩ := A
  simp [ofDraft?, ofDraft, hh, hs]

variable (A : Automaton)

def kind : Kind := A.draft.kind

def issues : List Issue := (A.draft.findings false).map (Issue.about A.id)

def states : List Value := distinct A.draft.states

def alphabet : List Value := distinct A.draft.alphabet

def initial : Value := A.draft.initial

def finals : List Value := distinct A.draft.finals

def symbols : List Value := Value.canonicalOrder A.alphabet

def hasEpsilon : Bool := !A.silent.isEmpty

def description : String :=
  "ValidatedAutomaton(id=" ++ (Value.text A.id).written ++ ", kind=" ++ (Value.text A.kind.name).written ++
    ", states=" ++ toString A.states.length ++ ", alphabet=" ++ toString A.alphabet.length ++ ")"

/-! ## Moves -/

def successors (q a : Value) : List Value := A.moves.targets (q, a)

def epsilonSuccessors (q : Value) : List Value := A.silent.targets q

def closure (qs : List Value) : List Value := FiniteAutomata.closure A.silent qs

def initialConfiguration : List Value := A.closure [A.initial]

def image (qs : List Value) (a : Value) : List Value := distinct (qs.flatMap (A.successors · a))

def step (qs : List Value) (a : Value) : List Value := A.closure (A.image qs a)

def configuration (w : List Value) : List Value := w.foldl A.step A.initialConfiguration

/-! ## Lookups of any value -/

/-- A lookup hashes the state before the symbol. -/
def checkLookup (q a : Value) : Except Fault Unit := checkHashes [q, a]

def successorsOf (q a : Value) : Except Fault (List Value) :=
  (checkLookup q a).map fun _ => A.successors q a

def epsilonSuccessorsOf (q : Value) : Except Fault (List Value) :=
  q.checkHash.map fun _ => A.epsilonSuccessors q

def closureOf (qs : List Value) : Except Fault (List Value) :=
  (checkHashes qs).map fun _ => A.closure qs

def stepOn (qs : List Value) (a : Value) : Except Fault (List Value) :=
  -- without a state there is no lookup, so any symbol will do
  (checkHashes (qs.flatMap fun q => [q, a])).map fun _ => A.step qs a

end Automaton

end FiniteAutomata
