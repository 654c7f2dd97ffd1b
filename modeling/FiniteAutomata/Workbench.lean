import FiniteAutomata.Automaton.Probe
import FiniteAutomata.Draft.Builder

/-!
# A workbench of drafts and automata

Items are kept under names. An operation that needs a checked automaton
refuses anything else.
-/

namespace FiniteAutomata

inductive Item where
  | nothing
  | draft (d : Draft)
  | automaton (A : Automaton)

namespace Item

def typeName : Item → String
  | nothing => "NoneType"
  | draft _ => "AutomatonSpec"
  | automaton _ => "ValidatedAutomaton"

def automaton? : Item → Option Automaton
  | automaton A => some A
  | _ => none

def require (request : Request) (i : Item) : Except Fault Automaton :=
  match i.automaton? with
  | some A => .ok A
  | none => .error (.notChecked request i.typeName)

/-! ## Checks -/

def check (check : Draft → Except Fault Report) (i : Item) (kind : Value) : Except Fault Report :=
  match i with
  | draft d => d.checkAs check kind
  | _ => .ok (Report.unreadable [⟨[], .notRecord⟩])

def validate (i : Item) (kind : Value) (strict failFast : Bool) : Except Fault Report :=
  i.check (·.validate strict failFast) kind

def determinizeDraft (i : Item) (strict : Bool) : Except Fault Report :=
  match i with
  | draft d => d.determinize strict
  | _ => .error (.noFields i.typeName)

def determinize (i : Item) : Except Fault Automaton := do
  (← i.require .determinize).determinize

/-! ## Runs -/

/-- The automaton is looked at before the word. -/
def runNfa (i : Item) (word : Value) : Run :=
  match i.require .runNfa with
  | .error e => .failed e
  | .ok A =>
    match word.members with
    | .error e => .failed e
    | .ok w => A.runNfa w

def runDfa (i : Item) (word : Value) : Run :=
  match i.require .runDfa with
  | .error e => .failed e
  | .ok A =>
    -- a wrong kind is told before a word that has no members
    match A.checkDfa with
    | .error e => .failed e
    | .ok _ =>
      match word.members with
      | .error e => .failed e
      | .ok w => A.runDfa w

def acceptsNfa (i : Item) (word : Value) : Except Fault Bool := (i.runNfa word).outcome.map Outcome.accepted

def acceptsDfa (i : Item) (word : Value) : Except Fault Bool := (i.runDfa word).outcome.map Outcome.accepted

def closure (i : Item) (states : Value) : Except Fault (List Value) := do
  let A ← i.require .closure
  A.closureOf (← states.members)

/-- The first word on which the verdicts differ. Each word is taken apart
before the automata are looked at. -/
def disagreement? (left right : Item) : List Value → Except Fault (Option Word)
  | [] => .ok none
  | word :: words => do
    let w ← word.members
    let A ← left.require .runNfa
    let a ← (A.runNfa w).outcome
    let B ← right.require .runNfa
    let b ← (B.runNfa w).outcome
    if a.verdict = b.verdict then disagreement? left right words else return some w

end Item

/-- `configuration` is the value whose members the next step goes on from. -/
structure Workbench where
  items : List (String × Item)
  configuration : Value

namespace Workbench

def empty : Workbench := ⟨[], .list []⟩

def item (b : Workbench) (name : String) : Item := (b.items.lookup name).getD .nothing

def store (name : String) (i : Item) (b : Workbench) : Workbench :=
  { b with items := (name, i) :: b.items }

def storeReport (name : String) (r : Report) (b : Workbench) : Workbench :=
  b.store name (match r.automaton? with
    | some A => .automaton A
    | none => .nothing)

def setConfiguration (qs : Value) (b : Workbench) : Workbench := { b with configuration := qs }

def step (b : Workbench) (A : Automaton) (a : Value) : Except Fault (List Value) := do
  A.stepOn (← b.configuration.members) a

end Workbench

end FiniteAutomata
