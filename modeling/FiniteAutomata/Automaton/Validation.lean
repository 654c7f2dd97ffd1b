import FiniteAutomata.Automaton.Basic

/-!
# Validation

A draft is checked in five stages. Under `failFast` the check ends with the
first stage that finds an error, and only the issues up to that error are
told. A check within limits of the runtime fails where these are exceeded and
does the same otherwise.
-/

namespace FiniteAutomata

/-- `defects` says why a record could not be read; there is an automaton when
no issue is an error. -/
structure Report where
  issues : List Issue
  defects : List Defect
  automaton? : Option Automaton

namespace Report

def ok (r : Report) : Bool := r.automaton?.isSome

def errors (r : Report) : List Issue := r.issues.filter Issue.isError

def warnings (r : Report) : List Issue := r.issues.filter Issue.isWarning

def unwrap (r : Report) : Except Fault Automaton :=
  match r.automaton? with
  | some A => .ok A
  | none => .error (.rejected (Issue.summary r.issues))

end Report

namespace Draft

variable (d : Draft)

def hashedFirst : List Value :=
  d.transitions.flatMap Transition.hashed ++ d.states ++ [d.initial]

def runStages (failFast : Bool) : List Issue → List (List Value × List Issue) →
    Except Fault (List Issue)
  | found, [] => .ok found
  | found, (hashed, told) :: rest =>
    -- a stage tells nothing unless all its lookups succeed
    match checkHashes hashed with
    | .error e => .error e
    | .ok _ =>
      if failFast && (found ++ told).any Issue.isError then .ok (Issue.throughFirstError (found ++ told))
      else runStages failFast (found ++ told) rest

/-- An automaton is made of sound drafts only. Without an error among all
findings the draft is sound (`ok_report_iff`), so in a check the issues alone
decide. -/
def report (findings : List Issue) : Report :=
  let id := d.id
  ⟨findings.map (Issue.about id), [],
    if findings.any Issue.isError then none else Automaton.ofDraft? d⟩

def validate (strict failFast : Bool) : Except Fault Report :=
  match checkHashes d.hashedFirst with
  | .error e => .error e
  | .ok _ => (runStages failFast [] (d.stages strict)).map d.report

def withKind (kind? : Option Kind) : Draft := { d with kind := kind?.getD d.kind }

def checkAs (check : Draft → Except Fault Report) (kind : Value) : Except Fault Report :=
  match Kind.override kind with
  | .error e => .error e
  | .ok kind? => check (d.withKind kind?)

/-! ## Limits of the runtime -/

def excess? (limits : Limits) (p : Passage) : Option Excess := d.labels.findSome? (limits.excess? p)

/-- The text that names the draft is made before anything is looked up, and an
automaton keeps a copy of its draft. What is written in between is part of
that text. -/
def validateWithin (limits : Limits) (strict failFast : Bool) : Except Fault Report :=
  match d.excess? limits .encoding with
  | some e => .error (.exceeded e limits)
  | none =>
    match d.validate strict failFast with
    | .error e => .error e
    | .ok r =>
      match if r.ok then d.excess? limits .copying else none with
      | some e => .error (.exceeded e limits)
      | none => .ok r

end Draft

/-! ## Records -/

def Report.unreadable (defects : List Defect) : Report :=
  ⟨[⟨.unreadable, .error, "Failed to deserialize automaton spec: <detail>", .draft, none, .null, .null⟩],
    defects, none⟩

/-- A record that cannot be read is reported before the kind is looked at. -/
def checkRecord (check : Draft → Except Fault Report) (record kind : Value) : Except Fault Report :=
  match Draft.read record with
  | .error defects => .ok (Report.unreadable defects)
  | .ok d => d.checkAs check kind

def validateRecord (record kind : Value) (strict failFast : Bool) : Except Fault Report :=
  checkRecord (·.validate strict failFast) record kind

end FiniteAutomata
