import FiniteAutomata.Proofs.DfaRuns

/-!
# Traces of runs

A caller may pass a list that a run writes its steps to, one by one. The run
does the same with and without it, and what the list held before stays in
front (`recordNfa_eq`, `recordDfa_eq`). The deterministic run writes a
consuming step for every symbol that it consumes; the nondeterministic run
writes one more when no state is left (`traces_count_symbols`).
-/

namespace FiniteAutomata

/-- The steps of a run behind those that the list has. -/
def Run.onto (r : Run) (trace : Option (List TraceStep)) : Recorded :=
  ⟨r.outcome, trace.map (· ++ r.trace)⟩

def TraceStep.consumes (s : TraceStep) : Bool := s.name = "consume"

def consumptions (trace : List TraceStep) : Nat := trace.countP TraceStep.consumes

namespace Automaton

variable {A : Automaton}

/-! ## Written steps are those of the run -/

@[simp]
theorem onto_ended (o : Outcome) (trace : Option (List TraceStep)) : (Run.ended o).onto trace = ⟨.ok o, trace⟩ := by
  simp [Run.onto, Run.ended]

@[simp]
theorem onto_failed (e : Fault) (trace : Option (List TraceStep)) :
    (Run.failed e).onto trace = ⟨.error e, trace⟩ := by
  simp [Run.onto, Run.failed]

theorem onto_after (s : TraceStep) (r : Run) (trace : Option (List TraceStep)) :
    (r.after s).onto trace = r.onto (record trace s) := by
  simp [Run.onto, Run.after, record, Function.comp_def]

theorem recordNfaFrom_eq {w qs : List Value} (trace : Option (List TraceStep)) (n : Nat) :
    A.recordNfaFrom trace qs n w = (A.runNfaFrom qs n w).onto trace := by
  induction w generalizing trace qs n with
  | nil => exact (onto_ended _ _).symm
  | cons a w ih =>
    unfold recordNfaFrom runNfaFrom
    cases A.stepOn qs a with
    | error e => exact (onto_failed e trace).symm
    | ok following =>
      dsimp only
      by_cases hdead : following.isEmpty = true
      · rw [if_pos hdead, if_pos hdead, onto_after, onto_ended]
      · rw [if_neg hdead, if_neg hdead, onto_after, ih]

theorem recordDfaFrom_eq {w : List Value} {q : Value} (trace : Option (List TraceStep)) (n : Nat) :
    A.recordDfaFrom trace q n w = (A.runDfaFrom q n w).onto trace := by
  induction w generalizing trace q n with
  | nil => exact (onto_ended _ _).symm
  | cons a w ih =>
    unfold recordDfaFrom runDfaFrom
    cases A.successorsOf q a with
    | error e => exact (onto_failed e trace).symm
    | ok targets =>
      cases targets with
      | nil => dsimp only; rw [onto_after, onto_ended]
      | cons target rest =>
        cases rest with
        | nil => dsimp only; rw [onto_after, ih]
        | cons _ _ => exact (onto_failed _ trace).symm

theorem recordNfa_eq (trace : Option (List TraceStep)) (w : List Value) :
    A.recordNfa trace w = (A.runNfa w).onto trace := recordNfaFrom_eq trace 0

theorem recordDfa_eq (trace : Option (List TraceStep)) (w : List Value) :
    A.recordDfa trace w = (A.runDfa w).onto trace := by
  unfold recordDfa runDfa
  cases A.checkDfa with
  | error e => exact (onto_failed e trace).symm
  | ok _ => exact recordDfaFrom_eq trace 0

/-! ## Consuming steps -/

theorem consumptions_after {s : TraceStep} (h : s.consumes = true) (r : Run) :
    consumptions (r.after s).trace = consumptions r.trace + 1 := List.countP_cons_of_pos h

theorem consumptions_after_of_not {s : TraceStep} (h : s.consumes = false) (r : Run) :
    consumptions (r.after s).trace = consumptions r.trace := List.countP_cons_of_neg (by simp [h])

/-- The step that finds no state left is written before that is noticed, so it
is in the trace and not counted. -/
theorem consumptions_runNfaFrom {w qs : List Value} {n : Nat} {o : Outcome}
    (h : (A.runNfaFrom qs n w).outcome = .ok o) :
    n + consumptions (A.runNfaFrom qs n w).trace = o.consumed + if o.consumed < n + w.length then 1 else 0 := by
  induction w generalizing qs n with
  | nil =>
    cases h
    simp [runNfaFrom, Run.ended, consumptions]
  | cons a w ih =>
    unfold runNfaFrom at h ⊢
    cases hs : A.stepOn qs a with
    | error e => rw [hs] at h; cases h
    | ok following =>
      rw [hs] at h
      dsimp only at h ⊢
      by_cases hdead : following.isEmpty = true
      · rw [if_pos hdead] at h ⊢
        cases h
        rw [consumptions_after rfl]
        simp [Run.ended, consumptions]
      · rw [if_neg hdead] at h ⊢
        have hrest := ih (n := n + 1) h
        rw [consumptions_after rfl, List.length_cons]
        rw [show n + 1 + w.length = n + (w.length + 1) by omega] at hrest
        omega

theorem consumptions_runDfaFrom {w : List Value} {q : Value} {n : Nat} {o : Outcome}
    (h : (A.runDfaFrom q n w).outcome = .ok o) :
    n + consumptions (A.runDfaFrom q n w).trace = o.consumed := by
  induction w generalizing q n with
  | nil => cases h; rfl
  | cons a w ih =>
    unfold runDfaFrom at h ⊢
    cases hs : A.successorsOf q a with
    | error e => rw [hs] at h; cases h
    | ok targets =>
      rw [hs] at h
      cases targets with
      | nil =>
        cases h
        dsimp only
        rw [consumptions_after_of_not rfl]; rfl
      | cons target rest =>
        cases rest with
        | nil =>
          dsimp only at h ⊢
          rw [consumptions_after rfl, ← ih (n := n + 1) h]
          omega
        | cons _ _ => cases h

theorem consumptions_runNfa {w : List Value} {o : Outcome} (h : (A.runNfa w).outcome = .ok o) :
    consumptions (A.runNfa w).trace = o.consumed + if o.consumed < w.length then 1 else 0 := by
  have hcount := consumptions_runNfaFrom h
  rwa [Nat.zero_add, Nat.zero_add] at hcount

theorem consumptions_runDfa {w : List Value} {o : Outcome} (h : (A.runDfa w).outcome = .ok o) :
    consumptions (A.runDfa w).trace = o.consumed := by
  unfold runDfa at h ⊢
  cases hcheck : A.checkDfa with
  | error e => rw [hcheck] at h; cases h
  | ok _ =>
    rw [hcheck] at h
    rw [← consumptions_runDfaFrom h, Nat.zero_add]

/-! ## Traces and outcomes -/

/-- A list that is passed does not change how a run ends, and keeps what it
has in front of the steps of the run. A deterministic run writes as many
consuming steps as it consumes symbols, and so does a nondeterministic run
that gets through its word; one that is left without states writes one
more. -/
theorem traces_count_symbols (A : Automaton) (w : List Value) (hw : ∀ a ∈ w, a.isHashable = true)
    (earlier : List TraceStep) :
    (∃ o steps, A.recordNfa none w = ⟨.ok o, none⟩ ∧ A.recordNfa (some earlier) w = ⟨.ok o, some (earlier ++ steps)⟩ ∧
      consumptions steps = o.consumed + if o.consumed < w.length then 1 else 0) ∧
    (A.kind = .dfa → ∃ o steps, A.recordDfa none w = ⟨.ok o, none⟩ ∧
      A.recordDfa (some earlier) w = ⟨.ok o, some (earlier ++ steps)⟩ ∧ consumptions steps = o.consumed) := by
  obtain ⟨o, ho, -⟩ := A.runNfa_ends hw
  constructor
  · refine ⟨o, (A.runNfa w).trace, ?_, ?_, consumptions_runNfa ho⟩
    · rw [recordNfa_eq, Run.onto, ho]; rfl
    · rw [recordNfa_eq, Run.onto, ho]; rfl
  · intro hk
    have hdfa : (A.runDfa w).outcome = .ok o := (outcome_runDfa_eq hk w).trans ho
    refine ⟨o, (A.runDfa w).trace, ?_, ?_, consumptions_runDfa hdfa⟩
    · rw [recordDfa_eq, Run.onto, hdfa]; rfl
    · rw [recordDfa_eq, Run.onto, hdfa]; rfl

theorem traces_count_symbols_alternation : (∀ a ∈ [Value.text "a", .text "b"], a.isHashable = true) ∧
    alternation.kind = .dfa ∧
    (∃ o steps, alternation.recordNfa (some [stuckStep .null .null]) [.text "a", .text "b"] =
      ⟨.ok o, some (stuckStep .null .null :: steps)⟩ ∧
        consumptions steps = o.consumed + if o.consumed < 2 then 1 else 0) ∧
    ∃ o steps, alternation.recordDfa (some [stuckStep .null .null]) [.text "a", .text "b"] =
      ⟨.ok o, some (stuckStep .null .null :: steps)⟩ ∧ consumptions steps = o.consumed := by
  have hw : ∀ a ∈ [Value.text "a", .text "b"], a.isHashable = true := by decide
  obtain ⟨⟨o, steps, _, hnfa, hcount⟩, hboth⟩ :=
    traces_count_symbols alternation [.text "a", .text "b"] hw [stuckStep .null .null]
  obtain ⟨o', steps', _, hdfa, hcount'⟩ := hboth rfl
  exact ⟨hw, rfl, ⟨o, steps, hnfa, hcount⟩, o', steps', hdfa, hcount'⟩

/-- No state is left after the first symbol, which is then not consumed, but
there is a consuming step for it. -/
theorem trace_counts_dead_symbol : ∃ o steps, silentLoop.recordNfa (some []) [.text "b"] = ⟨.ok o, some steps⟩ ∧
    o.consumed = 0 ∧ consumptions steps = 1 := by
  rw [recordNfa_eq]
  exact ⟨_, _, rfl, by decide +kernel, by decide +kernel⟩

end Automaton

end FiniteAutomata
