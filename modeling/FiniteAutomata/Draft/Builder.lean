import FiniteAutomata.Draft.Record

/-!
# Building a draft call by call

Declarations and edges are kept without repetition, in order of their first
call. A call that fails keeps what it did before it failed.
-/

namespace FiniteAutomata

/-- `infer` declares every state and symbol that a call refers to. -/
structure Builder where
  kind : Kind
  infer : Bool
  states : List Value
  alphabet : List Value
  initial : Option Value
  finals : List Value
  transitions : List Transition
  deriving Inhabited

abbrev Building := EStateM Fault Builder

inductive Call where
  | addState (q : Value)
  | addStates (qs : Value)
  | addSymbol (a : Value)
  | addSymbols (as : Value)
  | setInitial (q : Value)
  | addFinal (q : Value)
  | addTransition (source symbol target : Value)
  | addEpsilon (source target : Value)

namespace Builder

def start (kind : Kind) (infer : Bool) : Builder := ⟨kind, infer, [], [], none, [], []⟩

def ofKind (kind : Value) (infer : Bool) : Except Fault Builder :=
  (Kind.ofValue kind).map fun k => start k infer

def require {α : Type} : Except Fault α → Building α
  | .ok x => return x
  | .error e => throw e

def addState (q : Value) : Building Unit := do
  require q.checkHash
  modify fun b => { b with states := adjoin b.states q }

def addSymbol (a : Value) : Building Unit := do
  require a.checkHash
  modify fun b => { b with alphabet := adjoin b.alphabet a }

def each (add : Value → Building Unit) : List Value → Building Unit
  | [] => return ()
  | v :: vs => do
    add v
    each add vs

def inferStates (qs : List Value) : Building Unit := do
  if (← get).infer then each addState qs

def inferSymbol (a : Value) : Building Unit := do
  if (← get).infer then addSymbol a

def setInitial (q : Value) : Building Unit := do
  -- the initial state stays also when it cannot be declared
  modify fun b => { b with initial := some q }
  inferStates [q]

def addFinal (q : Value) : Building Unit := do
  require q.checkHash
  modify fun b => { b with finals := adjoin b.finals q }
  inferStates [q]

def addEdge (source symbol target : Value) : Building Unit := do
  let t ← require ((Transition.read (Transition.mk source symbol target).record).mapError .malformed)
  require (checkHashes [t.source, t.symbol, t.target])
  modify fun b => { b with transitions := adjoin b.transitions t }

def addEpsilon (source target : Value) : Building Unit := do
  -- the kind stays also when the edge is refused
  modify fun b => { b with kind := .epsilonNfa }
  addEdge source epsilon target
  inferStates [source, target]

def addTransition (source symbol target : Value) : Building Unit := do
  if symbol == epsilon then addEpsilon source target
  else
    addEdge source symbol target
    inferStates [source, target]
    inferSymbol symbol

def perform : Call → Building Unit
  | .addState q => addState q
  | .addStates qs => do each addState (← require qs.members)
  | .addSymbol a => addSymbol a
  | .addSymbols as => do each addSymbol (← require as.members)
  | .setInitial q => setInitial q
  | .addFinal q => addFinal q
  | .addTransition source symbol target => addTransition source symbol target
  | .addEpsilon source target => addEpsilon source target

def performAll : List Call → Building Unit
  | [] => return ()
  | call :: calls => do
    perform call
    performAll calls

def build (b : Builder) : Except Fault Draft :=
  match b.initial with
  | none => .error .noInitialState
  | some q =>
    -- the initial state has been in no set, so it may still change in place
    match Reading.placed (.field "initial_state") (Reading.label q) with
    | .error ds => .error (.malformed ds)
    | .ok q => .ok ⟨b.kind, b.states, b.alphabet, q, b.finals, b.transitions⟩

end Builder

end FiniteAutomata
