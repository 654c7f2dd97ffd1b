import FiniteAutomata.Draft.Identity
import FiniteAutomata.Graph.Reach
import FiniteAutomata.Issue

/-!
# What is wrong with a draft

Five lists of issues, which together are the issues of the draft: reserved
symbols, undeclared labels, unreachable states, unreachable final states and
ambiguous moves. Main statement: `Draft.isSound_iff`, that soundness is the
absence of errors.
-/

namespace FiniteAutomata

namespace Draft

variable (d : Draft)

/-- Under strict rules anything unreachable is an error. -/
def reachSeverity (strict : Bool) : Severity := if strict then .error else .warning

def finding (code : Issue.Code) (severity : Severity) (message : String) (location : Issue.Location)
    (state symbol : Value) : Issue :=
  ⟨code, severity, message, location, none, state, symbol⟩

/-! ## Declarations -/

def reservedSymbols : List Issue :=
  d.alphabet.zipIdx.filterMap fun (a, i) =>
    if a == epsilon then
      some (finding .reservedSymbol .error
        ("Alphabet must not contain the epsilon marker " ++ epsilon.written) (.symbol i) .null a)
    else none

def undeclaredState (q : Value) (location : Issue.Location) : List Issue :=
  if d.states.contains q then []
  else
    [finding .undeclaredReference .error ("State " ++ q.written ++ " is not declared in states") location
      q .null]

def symbolProblem? (t : Transition) : Option String :=
  if t.isEpsilon then
    if d.kind = .epsilonNfa then none
    else
      some ("Epsilon transitions are only allowed for kind '" ++ Kind.epsilonNfa.name ++ "', got '" ++
        d.kind.name ++ "'")
  else if d.alphabet.contains t.symbol then none
  else some ("Symbol " ++ t.symbol.written ++ " is not declared in alphabet")

def undeclaredSymbol (t : Transition) (i : Nat) : List Issue :=
  match d.symbolProblem? t with
  | none => []
  | some message =>
    [finding .undeclaredReference .error message (.edgePart i .symbol) t.source t.symbol]

def undeclaredInEdge (t : Transition) (i : Nat) : List Issue :=
  d.undeclaredState t.source (.edgePart i .source) ++ d.undeclaredState t.target (.edgePart i .target) ++
    d.undeclaredSymbol t i

def undeclared : List Issue :=
  d.undeclaredState d.initial .initial ++
    d.finals.zipIdx.flatMap (fun (q, i) => d.undeclaredState q (.final i)) ++
    d.transitions.zipIdx.flatMap (fun (t, i) => d.undeclaredInEdge t i)

/-! ## Reachability -/

/-- None are known when the initial state is not declared. -/
def live? : Option (List Value) :=
  if d.states.contains d.initial then
    some ((reachableBy d.transitions d.initial).filter d.states.contains)
  else none

def unreachableStates (live : List Value) (strict : Bool) : List Issue :=
  d.states.zipIdx.filterMap fun (q, i) =>
    -- the next stage tells of final states
    if live.contains q || d.finals.contains q then none
    else
      some (finding .unreachableState (reachSeverity strict)
        ("State " ++ q.written ++ " is not reachable from initial state " ++ d.initial.written)
        (.state i) q .null)

def nothingAccepted : String :=
  if d.finals.isEmpty then "No final states declared; the automaton accepts nothing"
  else
    "No final state is reachable from initial state " ++ d.initial.written ++
      "; the automaton accepts nothing"

def unreachableFinals (live : List Value) (strict : Bool) : List Issue :=
  if meets d.finals live then
    d.finals.zipIdx.filterMap fun (q, i) =>
      if live.contains q || !d.states.contains q then none
      else
        some (finding .unreachableFinalState (reachSeverity strict)
          ("Final state " ++ q.written ++ " is not reachable from initial state " ++ d.initial.written)
          (.final i) q .null)
  else
    [finding .noFinalStateReachable (reachSeverity strict) d.nothingAccepted .finals .null .null]

/-- Nothing is told about reachability when no states are known to be live. -/
def whenKnown (live? : Option (List Value)) (told : List Value → List Issue) : List Issue :=
  match live? with
  | some live => told live
  | none => []

/-! ## Determinism -/

def firstEdge (source symbol : Value) : Nat :=
  d.transitions.findIdx fun t => t.source == source && t.symbol == symbol

def ambiguousMoves : List Issue :=
  if d.kind = .dfa then
    (moves d.transitions).filterMap fun ((q, a), targets) =>
      if targets.length ≤ 1 then none
      else
        some (finding .nonDeterministic .error
          ("Transition (" ++ q.written ++ ", " ++ a.written ++ ") has " ++ toString targets.length ++
            " targets: " ++ (Value.list (Value.canonicalOrder targets)).written)
          (.edge (d.firstEdge q a)) q a)
  else []

/-! ## All issues -/

def stages (strict : Bool) : List (List Value × List Issue) :=
  let live? := d.live?
  [([], d.reservedSymbols),
   (d.alphabet ++ d.finals, d.undeclared),
   ([], whenKnown live? (d.unreachableStates · strict)),
   ([], whenKnown live? (d.unreachableFinals · strict)),
   ([], d.ambiguousMoves)]

def findings (strict : Bool) : List Issue := (d.stages strict).flatMap Prod.snd

theorem findings_eq_append (strict : Bool) : d.findings strict =
    d.reservedSymbols ++ d.undeclared ++ whenKnown d.live? (d.unreachableStates · strict) ++
      whenKnown d.live? (d.unreachableFinals · strict) ++ d.ambiguousMoves := by
  simp [findings, stages]

def issues (strict : Bool) : List Issue :=
  let id := d.id
  (d.findings strict).map (Issue.about id)

def isSound : Bool := d.reservedSymbols.isEmpty && d.undeclared.isEmpty && d.ambiguousMoves.isEmpty

/-! ## What an issue is told as -/

section
variable {d}
variable {i : Issue}

theorem isTold_of_mem_reservedSymbols (h : i ∈ d.reservedSymbols) : i.IsTold .reservedSymbol .error := by
  obtain ⟨⟨a, n⟩, _, h⟩ := List.mem_filterMap.mp h
  dsimp only at h
  split at h
  · cases h
    exact ⟨rfl, rfl⟩
  · cases h

theorem isTold_of_mem_undeclaredState {q : Value} {location : Issue.Location}
    (h : i ∈ d.undeclaredState q location) : i.IsTold .undeclaredReference .error := by
  unfold undeclaredState at h
  split at h
  · cases h
  · rw [List.mem_singleton.mp h]
    exact ⟨rfl, rfl⟩

theorem isTold_of_mem_undeclaredSymbol {t : Transition} {n : Nat} (h : i ∈ d.undeclaredSymbol t n) :
    i.IsTold .undeclaredReference .error := by
  unfold undeclaredSymbol at h
  split at h
  · cases h
  · rw [List.mem_singleton.mp h]
    exact ⟨rfl, rfl⟩

theorem isTold_of_mem_undeclared (h : i ∈ d.undeclared) : i.IsTold .undeclaredReference .error := by
  rcases List.mem_append.mp h with h | h
  · rcases List.mem_append.mp h with h | h
    · exact isTold_of_mem_undeclaredState h
    · obtain ⟨_, _, h⟩ := List.mem_flatMap.mp h
      exact isTold_of_mem_undeclaredState h
  · obtain ⟨_, _, h⟩ := List.mem_flatMap.mp h
    rcases List.mem_append.mp h with h | h
    · rcases List.mem_append.mp h with h | h
      · exact isTold_of_mem_undeclaredState h
      · exact isTold_of_mem_undeclaredState h
    · exact isTold_of_mem_undeclaredSymbol h

theorem isTold_of_mem_ambiguousMoves (h : i ∈ d.ambiguousMoves) : i.IsTold .nonDeterministic .error := by
  unfold ambiguousMoves at h
  split at h
  · obtain ⟨⟨⟨q, a⟩, targets⟩, _, h⟩ := List.mem_filterMap.mp h
    dsimp only at h
    split at h
    · cases h
    · cases h
      exact ⟨rfl, rfl⟩
  · cases h

theorem isTold_of_mem_unreachableStates {live : List Value} {strict : Bool}
    (h : i ∈ d.unreachableStates live strict) : i.IsTold .unreachableState (reachSeverity strict) := by
  obtain ⟨⟨q, n⟩, _, h⟩ := List.mem_filterMap.mp h
  dsimp only at h
  split at h
  · cases h
  · cases h
    exact ⟨rfl, rfl⟩

theorem isTold_of_mem_unreachableFinals {live : List Value} {strict : Bool}
    (h : i ∈ d.unreachableFinals live strict) : i.IsTold .noFinalStateReachable (reachSeverity strict) ∨
      i.IsTold .unreachableFinalState (reachSeverity strict) := by
  unfold unreachableFinals at h
  split at h
  · obtain ⟨⟨q, n⟩, _, h⟩ := List.mem_filterMap.mp h
    dsimp only at h
    split at h
    · cases h
    · cases h
      exact Or.inr ⟨rfl, rfl⟩
  · rw [List.mem_singleton.mp h]
    exact Or.inl ⟨rfl, rfl⟩

theorem severity_of_mem_unreachableFinals {live : List Value} {strict : Bool}
    (h : i ∈ d.unreachableFinals live strict) : i.severity = reachSeverity strict := by
  rcases isTold_of_mem_unreachableFinals h with h | h
  · exact h.severity
  · exact h.severity

theorem mem_whenKnown {live? : Option (List Value)} {told : List Value → List Issue} :
    i ∈ whenKnown live? told ↔ ∃ live, live? = some live ∧ i ∈ told live := by
  cases live? with
  | none => simp [whenKnown]
  | some live => simp [whenKnown]

/-! ## Soundness -/

theorem isEmpty_of_isError {is : List Issue} (herror : ∀ i ∈ is, i.isError = true)
    (h : ∀ i ∈ is, i.isError = false) : is.isEmpty = true := by
  refine List.isEmpty_iff.mpr (List.eq_nil_iff_forall_not_mem.mpr fun i hi => ?_)
  have := herror i hi
  rw [h i hi] at this
  cases this

theorem isSound_of_forall_not_isError {strict : Bool} (h : ∀ i ∈ d.findings strict, i.isError = false) :
    d.isSound = true := by
  simp only [findings_eq_append, List.forall_mem_append] at h
  obtain ⟨⟨⟨⟨hr, hu⟩, _⟩, _⟩, ha⟩ := h
  unfold isSound
  rw [isEmpty_of_isError (fun _ hi => (isTold_of_mem_reservedSymbols hi).isError) hr,
    isEmpty_of_isError (fun _ hi => (isTold_of_mem_undeclared hi).isError) hu,
    isEmpty_of_isError (fun _ hi => (isTold_of_mem_ambiguousMoves hi).isError) ha]
  rfl

theorem isSound_iff : d.isSound = true ↔ ∀ i ∈ d.findings false, i.isError = false := by
  refine ⟨?_, isSound_of_forall_not_isError⟩
  have hwarning {i : Issue} (h : i.severity = reachSeverity false) : i.isError = false := by
    simp [Issue.isError, h, reachSeverity]
  simp only [isSound, findings_eq_append, Bool.and_eq_true, List.isEmpty_iff, List.forall_mem_append]
  rintro ⟨⟨hr, hu⟩, ha⟩
  rw [hr, hu, ha]
  have hnone : ∀ i ∈ ([] : List Issue), i.isError = false := List.forall_mem_nil _
  refine ⟨⟨⟨⟨hnone, hnone⟩, fun i hi => ?_⟩, fun i hi => ?_⟩, hnone⟩
  · obtain ⟨_, _, hi⟩ := mem_whenKnown.mp hi
    exact hwarning (isTold_of_mem_unreachableStates hi).severity
  · obtain ⟨_, _, hi⟩ := mem_whenKnown.mp hi
    exact hwarning (severity_of_mem_unreachableFinals hi)

end

end Draft

end FiniteAutomata
