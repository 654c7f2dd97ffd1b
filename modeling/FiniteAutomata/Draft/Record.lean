import FiniteAutomata.Draft.Basic
import FiniteAutomata.Fault
import FiniteAutomata.Reading.Basic

/-!
# Drafts as untyped records
-/

namespace FiniteAutomata

open Reading (next)

namespace Transition

def read : Value → Reading Transition :=
  Reading.record fun v =>
    Except.ok Transition.mk
      |> next (Reading.field "source" Reading.label v)
      |> next (Reading.field "symbol" Reading.label v)
      |> next (Reading.field "target" Reading.label v)

def record (t : Transition) : Value :=
  .record [(.text "source", t.source), (.text "symbol", t.symbol), (.text "target", t.target)]

end Transition

namespace Draft

def read : Value → Reading Draft :=
  Reading.record fun v =>
    Except.ok Draft.mk
      |> next (Reading.fieldOr "kind" Kind.nfa (Reading.named Kind.ofName?) v)
      |> next (Reading.fieldOr "states" [] (Reading.list Reading.label) v)
      |> next (Reading.fieldOr "alphabet" [] (Reading.list Reading.label) v)
      |> next (Reading.field "initial_state" Reading.label v)
      |> next (Reading.fieldOr "final_states" [] (Reading.list Reading.label) v)
      |> next (Reading.fieldOr "transitions" [] (Reading.list Transition.read) v)

/-- The record as the draft lists its labels. What is written down from a
draft is a copy of it, whose sets may be listed in another order. -/
def record (d : Draft) : Value :=
  .record
    [(.text "kind", .text d.kind.name),
     (.text "states", .list d.states),
     (.text "alphabet", .list d.alphabet),
     (.text "initial_state", d.initial),
     (.text "final_states", .list d.finals),
     (.text "transitions", .list (d.transitions.map Transition.record))]

end Draft

namespace Kind

def ofValue (v : Value) : Except Fault Kind :=
  match v with
  | .text s =>
    match ofName? s with
    | some k => .ok k
    | none => .error (.unknownKind v)
  | _ => .error (.unknownKind v)

/-- A kind in place of the declared one; `null` stands for none. -/
def override : Value → Except Fault (Option Kind)
  | .null => .ok none
  | v => (ofValue v).map some

end Kind

end FiniteAutomata
