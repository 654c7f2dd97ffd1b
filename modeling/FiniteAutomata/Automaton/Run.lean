import FiniteAutomata.Automaton.Basic
import FiniteAutomata.Value.Canonical

/-!
# Runs over words

The deterministic run follows one state, the nondeterministic run a
configuration. Both end early when nothing is left to follow, and both leave a
trace of one step per symbol read.
-/

namespace FiniteAutomata

inductive Verdict where
  | accepted
  | rejected
  deriving DecidableEq, Inhabited

namespace Verdict

def name : Verdict → String
  | accepted => "accepted"
  | rejected => "rejected"

def ofName? (s : String) : Option Verdict := [accepted, rejected].find? (·.name = s)

def ofBool (b : Bool) : Verdict := if b then accepted else rejected

end Verdict

/-- The final states are those that the run ended in, none when it ended
early. -/
structure Outcome where
  verdict : Verdict
  finalStates : List Value
  consumed : Nat
  deriving Inhabited

def Outcome.accepted (o : Outcome) : Bool := o.verdict = .accepted

structure TraceStep where
  name : String
  choice : String
  value : Value
  deriving Inhabited

/-- The trace is kept also when the run ends in a fault. -/
structure Run where
  trace : List TraceStep
  outcome : Except Fault Outcome

namespace Run

def ended (o : Outcome) : Run := ⟨[], .ok o⟩

def failed (e : Fault) : Run := ⟨[], .error e⟩

def after (step : TraceStep) (r : Run) : Run := { r with trace := step :: r.trace }

end Run

/-- What a run leaves when a list for its steps may have been passed. -/
structure Recorded where
  outcome : Except Fault Outcome
  trace : Option (List TraceStep)

namespace Automaton

variable (A : Automaton)

/-! ## Nondeterministic runs -/

def consumeStep (a : Value) (before after : List Value) : TraceStep :=
  ⟨"consume",
    a.written ++ ": " ++ toString before.length ++ " -> " ++ toString after.length ++ " state(s)",
    .list ((sortTexts (after.map Value.written)).map .text)⟩

def runNfaFrom (qs : List Value) (consumed : Nat) : List Value → Run
  | [] => .ended ⟨.ofBool (meets qs A.finals), qs, consumed⟩
  | a :: w =>
    match A.stepOn qs a with
    | .error e => .failed e
    | .ok following =>
      -- the step that finds no state left is told, its symbol is not counted
      if following.isEmpty then
        (Run.ended ⟨.rejected, [], consumed⟩).after (consumeStep a qs following)
      else (runNfaFrom following (consumed + 1) w).after (consumeStep a qs following)

def runNfa (w : List Value) : Run := A.runNfaFrom A.initialConfiguration 0 w

def verdict (w : List Value) : Verdict :=
  match (A.runNfa w).outcome with
  | .ok o => o.verdict
  | .error _ => .rejected

/-! ## Deterministic runs -/

def moveStep (q a target : Value) : TraceStep :=
  ⟨"consume", q.written ++ " --" ++ a.written ++ "--> " ++ target.written, target⟩

def stuckStep (q a : Value) : TraceStep :=
  ⟨"stuck", "No transition from " ++ q.written ++ " on " ++ a.written, .null⟩

def runDfaFrom (q : Value) (consumed : Nat) : List Value → Run
  | [] => .ended ⟨.ofBool (A.finals.contains q), [q], consumed⟩
  | a :: w =>
    match A.successorsOf q a with
    | .error e => .failed e
    | .ok [] => (Run.ended ⟨.rejected, [], consumed⟩).after (stuckStep q a)
    | .ok [target] => (runDfaFrom target (consumed + 1) w).after (moveStep q a target)
    | .ok (_ :: _ :: _) => .failed (.tooMany 1)

def checkDfa : Except Fault Unit :=
  if A.kind = .dfa then .ok () else .error (.wrongKind A.kind)

def runDfa (w : List Value) : Run :=
  match A.checkDfa with
  | .error e => .failed e
  | .ok _ => A.runDfaFrom A.initial 0 w

/-! ## Runs that write their steps to a list

A caller may pass a list, which gets one step after another. -/

def record (trace : Option (List TraceStep)) (s : TraceStep) : Option (List TraceStep) := trace.map (· ++ [s])

def recordNfaFrom (trace : Option (List TraceStep)) (qs : List Value) (consumed : Nat) : List Value → Recorded
  | [] => ⟨.ok ⟨.ofBool (meets qs A.finals), qs, consumed⟩, trace⟩
  | a :: w =>
    match A.stepOn qs a with
    | .error e => ⟨.error e, trace⟩
    | .ok following =>
      let trace := record trace (consumeStep a qs following)
      if following.isEmpty then ⟨.ok ⟨.rejected, [], consumed⟩, trace⟩
      else recordNfaFrom trace following (consumed + 1) w

def recordNfa (trace : Option (List TraceStep)) (w : List Value) : Recorded :=
  A.recordNfaFrom trace A.initialConfiguration 0 w

def recordDfaFrom (trace : Option (List TraceStep)) (q : Value) (consumed : Nat) : List Value → Recorded
  | [] => ⟨.ok ⟨.ofBool (A.finals.contains q), [q], consumed⟩, trace⟩
  | a :: w =>
    match A.successorsOf q a with
    | .error e => ⟨.error e, trace⟩
    | .ok [] => ⟨.ok ⟨.rejected, [], consumed⟩, record trace (stuckStep q a)⟩
    | .ok [target] => recordDfaFrom (record trace (moveStep q a target)) target (consumed + 1) w
    | .ok (_ :: _ :: _) => ⟨.error (.tooMany 1), trace⟩

def recordDfa (trace : Option (List TraceStep)) (w : List Value) : Recorded :=
  match A.checkDfa with
  | .error e => ⟨.error e, trace⟩
  | .ok _ => A.recordDfaFrom trace A.initial 0 w

end Automaton

end FiniteAutomata
