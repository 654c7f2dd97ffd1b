import FiniteAutomata.Automaton.Probe
import FiniteAutomata.Issue
import FiniteAutomata.Reading.Basic

/-!
# Results as untyped records

Outcomes, trace steps, probes and issues read back from records.
-/

namespace FiniteAutomata

open Reading (next)

def Outcome.read : Value → Reading Outcome :=
  Reading.record fun v =>
    Except.ok Outcome.mk
      |> next (Reading.field "verdict" (Reading.named Verdict.ofName?) v)
      |> next (Reading.fieldOr "final_states" [] Reading.frozenSet v)
      |> next (Reading.field "symbols_consumed" Reading.nonnegative v)

def TraceStep.read : Value → Reading TraceStep :=
  Reading.record fun v =>
    Except.ok TraceStep.mk
      |> next (Reading.field "step" Reading.text v)
      |> next (Reading.field "choice" Reading.text v)
      |> next (Reading.field "value" Reading.anything v)

def Probe.read : Value → Reading Probe :=
  Reading.record fun v =>
    Except.ok Probe.mk
      |> next (Reading.field "word" (Reading.tuple Reading.label) v)
      |> next (Reading.field "verdict" (Reading.named Verdict.ofName?) v)
      |> next (Reading.field "tag" (Reading.named Tag.ofName?) v)

/-- An issue as it is written out: code and location are plain text. -/
structure IssueRecord where
  code : String
  severity : Severity
  message : String
  location : String
  automatonId : Option String
  state : Value
  symbol : Value
  deriving Inhabited

def Issue.record (i : Issue) : IssueRecord :=
  ⟨i.code.name, i.severity, i.message, i.location.text, i.automatonId, i.state, i.symbol⟩

def IssueRecord.read : Value → Reading IssueRecord :=
  Reading.record fun v =>
    Except.ok IssueRecord.mk
      |> next (Reading.field "code" Reading.text v)
      |> next (Reading.field "severity" (Reading.named Severity.ofName?) v)
      |> next (Reading.field "message" Reading.text v)
      |> next (Reading.field "location" Reading.text v)
      |> next (Reading.fieldOr "automaton_id" none Reading.textOrNull v)
      |> next (Reading.fieldOr "state" .null Reading.anything v)
      |> next (Reading.fieldOr "symbol" .null Reading.anything v)

end FiniteAutomata
