import FiniteAutomata.Automaton.Validation

/-!
# The subset construction

A state of the deterministic automaton is the tuple of the states it stands
for, in canonical order. Only subsets that are reached are made, and the empty
one is never a state.
-/

namespace FiniteAutomata

abbrev Subset := List Value

def canonicalSubset (qs : List Value) : Subset := Value.canonicalOrder (distinct qs)

/-- More than the number of lists of at most `n` elements out of `n`. -/
def listsBound (n : Nat) : Nat := (n + 1).pow n + 1

namespace Automaton

variable (A : Automaton)

def labelCount : Nat := 1 + A.moves.allTargets.length + A.silent.allTargets.length

def subsetStep? (s : Subset) (a : Value) : Option Subset :=
  let image := A.image s a
  if image.isEmpty then none else some (canonicalSubset (A.closure image))

def startSubset : Subset := canonicalSubset A.initialConfiguration

def subsets : List Subset :=
  explore (fun s => A.symbols.filterMap (A.subsetStep? s)) (listsBound A.labelCount) [A.startSubset]

def subsetEdges (s : Subset) : List Transition :=
  A.symbols.filterMap fun a => (A.subsetStep? s a).map fun t => ⟨.tuple s, a, .tuple t⟩

def subsetDraft : Draft where
  kind := .dfa
  states := A.subsets.map Value.tuple
  alphabet := A.symbols
  initial := .tuple A.startSubset
  finals := (A.subsets.filter (meets · A.finals)).map Value.tuple
  transitions := A.subsets.flatMap A.subsetEdges

def determinize : Except Fault Automaton :=
  -- the result is checked like any other draft
  match A.subsetDraft.validate false false with
  | .error e => .error e
  | .ok r => r.unwrap

end Automaton

/-! ## Drafts -/

def Report.determinize (r : Report) : Except Fault Report :=
  match r.automaton? with
  | none => .ok r
  | some A => A.determinize.map fun D => ⟨r.warnings, [], some D⟩

def Draft.determinize (d : Draft) (strict : Bool) : Except Fault Report :=
  -- as a nondeterministic draft it may have two targets under a key
  match (if d.kind = .dfa then d.withKind (some .nfa) else d).validate strict false with
  | .error e => .error e
  | .ok r => r.determinize

/-- The kind that a record declares is looked at before the record is read. -/
def determinizeRecord (record : Value) (strict : Bool) : Except Fault Report :=
  match record with
  | .record _ =>
    -- the kind is looked at before the record is read
    let declared := (record.field? "kind").getD .null
    let kind : Value := if declared == .text Kind.dfa.name then .text Kind.nfa.name else .null
    match validateRecord record kind strict false with
    | .error e => .error e
    | .ok r => r.determinize
  | _ => .error (.noFields record.typeName)

end FiniteAutomata
