import FiniteAutomata.Proofs.Liveness
import FiniteAutomata.Proofs.Places
import Mathlib.Logic.ExistsUnique

/-!
# Issues about reachability

A declared state is live when some walk along the edges leads to it, whatever
undeclared states the walk goes through. So what is told about reachability
can be read off the draft, valid or not: nothing when the initial state is
undeclared, and otherwise one issue at each place that names an unreachable
state (`reachability_issues_exact`).
-/

namespace FiniteAutomata

namespace Draft

/-- Some walk from the initial state leads to the state. -/
def IsReached (d : Draft) (q : Value) : Prop := ∃ es, Walk d.transitions d.initial es q

def ReachesFinal (d : Draft) : Prop := ∃ q ∈ d.finals, d.states.contains q = true ∧ d.IsReached q

variable {d : Draft} {strict : Bool}

open Issue (ToldAt)

theorem IsReached.congr {p q : Value} (h : d.IsReached p) (hpq : (p == q) = true) : d.IsReached q := by
  obtain ⟨es, hes⟩ := h
  exact ⟨es, hes.congr_right hpq⟩

theorem contains_live_iff_isReached {q : Value} (hq : d.states.contains q = true) :
    d.live.contains q = true ↔ d.IsReached q := by
  simp [contains_live_iff, contains_reachableBy_iff_walk, hq, IsReached]

theorem meets_live_iff : meets d.finals d.live = true ↔ d.ReachesFinal := by
  simp [meets_iff, contains_live_iff, contains_reachableBy_iff_walk, ReachesFinal, IsReached, and_comm]

/-! ## One stage at a time -/

theorem toldAt_unreachableStates : ToldAt (d.unreachableStates d.live strict) .unreachableState fun l q =>
    ∃ n, l = .state n ∧ d.states[n]? = some q ∧ ¬ d.IsReached q ∧ d.finals.contains q = false := by
  unfold unreachableStates
  refine (Issue.toldAt_zipIdx _ (fun q => d.live.contains q || d.finals.contains q) (fun q n => finding .unreachableState
    (reachSeverity strict) ("State " ++ q.written ++ " is not reachable from initial state " ++ d.initial.written)
    (.state n) q .null) .state (fun _ _ => rfl) (fun _ _ => rfl) (fun _ _ => rfl) fun _ => rfl).congr ?_
  intro l q
  apply exists_congr; intro n
  apply and_congr_right; intro _
  apply and_congr_right; intro hq
  have hdeclared : d.states.contains q = true := contains_of_mem (List.mem_of_getElem? hq)
  rw [Bool.or_eq_false_iff, ← Bool.not_eq_true, contains_live_iff_isReached hdeclared]

section
variable (h : d.ReachesFinal)
include h

theorem toldAt_unreachableFinals : ToldAt (d.unreachableFinals d.live strict) .unreachableFinalState fun l q =>
    ∃ n, l = .final n ∧ d.finals[n]? = some q ∧ d.states.contains q = true ∧ ¬ d.IsReached q := by
  unfold unreachableFinals
  rw [if_pos (meets_live_iff.mpr h)]
  refine (Issue.toldAt_zipIdx _ (fun q => d.live.contains q || !d.states.contains q) (fun q n => finding .unreachableFinalState
    (reachSeverity strict) ("Final state " ++ q.written ++ " is not reachable from initial state " ++ d.initial.written)
    (.final n) q .null) .final (fun _ _ => rfl) (fun _ _ => rfl) (fun _ _ => rfl) fun _ => rfl).congr ?_
  intro l q
  apply exists_congr; intro n
  apply and_congr_right; intro _
  apply and_congr_right; intro _
  by_cases hdeclared : d.states.contains q = true
  · simp [hdeclared, ← contains_live_iff_isReached hdeclared]
  · simp [hdeclared]

theorem code_of_mem_unreachableFinals {i : Issue} (hi : i ∈ d.unreachableFinals d.live strict) :
    i.code = .unreachableFinalState := by
  rcases isTold_of_mem_unreachableFinals hi with htold | htold
  · have hmeets := (exists_mem_unreachableFinals_iff strict).mp ⟨i, hi, htold.code⟩
    rw [meets_live_iff.mpr h] at hmeets
    cases hmeets
  · exact htold.code

end

theorem unreachableFinals_of_not (h : ¬ d.ReachesFinal) : d.unreachableFinals d.live strict =
    [finding .noFinalStateReachable (reachSeverity strict) d.nothingAccepted .finals .null .null] := by
  rw [← meets_live_iff] at h
  unfold unreachableFinals
  rw [if_neg h]

/-! ## All issues -/

theorem isLenient_eq_false_of_undeclared (h : d.states.contains d.initial = false) {i : Issue}
    (hi : i ∈ d.findings strict) : i.code.isLenient = false := by
  have hunknown : d.live? = none := by simp [live?, h]
  rw [Bool.eq_false_iff]
  intro hcode
  have hmem := Issue.mem_filter_code.mpr ⟨hi, rfl⟩
  rw [filter_findings_of_isLenient hcode, hunknown] at hmem
  cases hmem

section
variable (hinitial : d.states.contains d.initial = true)
include hinitial

theorem filter_findings_of_declared {code : Issue.Code} (hcode : code.isLenient = true) (strict : Bool) :
    (d.findings strict).filter (fun i => i.code = code) =
      (d.unreachableStates d.live strict).filter (fun i => i.code = code) ++
        (d.unreachableFinals d.live strict).filter fun i => i.code = code := by
  rw [filter_findings_of_isLenient hcode, live?_eq_of_declared hinitial, List.filter_append]; rfl

theorem toldAt_unreachableState (strict : Bool) : ToldAt (d.findings strict) .unreachableState fun l q =>
    ∃ n, l = .state n ∧ d.states[n]? = some q ∧ ¬ d.IsReached q ∧ d.finals.contains q = false := by
  have hother : ∀ i ∈ d.unreachableFinals d.live strict, i.code ≠ .unreachableState := by
    intro i hi
    rcases isTold_of_mem_unreachableFinals hi with htold | htold
    · simp [htold.code]
    · simp [htold.code]
  apply toldAt_unreachableStates.of_filter
  rw [filter_findings_of_declared hinitial rfl, filter_code_eq_nil hother, List.append_nil]

theorem filter_findings_of_final {code : Issue.Code} (hcode : code.isLenient = true) (hne : code ≠ .unreachableState)
    (strict : Bool) : (d.findings strict).filter (fun i => i.code = code) =
      (d.unreachableFinals d.live strict).filter fun i => i.code = code := by
  have hother : ∀ i ∈ d.unreachableStates d.live strict, i.code ≠ code := by
    intro i hi
    rw [(isTold_of_mem_unreachableStates hi).code]
    exact hne.symm
  rw [filter_findings_of_declared hinitial hcode, filter_code_eq_nil hother, List.nil_append]

theorem toldAt_noFinalStateReachable (strict : Bool) : ToldAt (d.findings strict) .noFinalStateReachable fun l q =>
    l = .finals ∧ q = .null ∧ ¬ d.ReachesFinal := by
  have hfilter := filter_findings_of_final hinitial rfl (show Issue.Code.noFinalStateReachable ≠ _ by simp) strict
  by_cases h : d.ReachesFinal
  · have hother : ∀ i ∈ d.unreachableFinals d.live strict, i.code ≠ .noFinalStateReachable := by
      intro i hi
      simp [code_of_mem_unreachableFinals h hi]
    rw [filter_code_eq_nil hother] at hfilter
    apply ((Issue.toldAt_nil _).of_filter hfilter).congr
    simp [h]
  · rw [unreachableFinals_of_not h] at hfilter
    refine Issue.ToldAt.congr (Issue.ToldAt.of_filter (Issue.toldAt_singleton rfl) hfilter) ?_
    simp [h, finding]

theorem toldAt_unreachableFinalState (strict : Bool) : ToldAt (d.findings strict) .unreachableFinalState fun l q =>
    d.ReachesFinal ∧ ∃ n, l = .final n ∧ d.finals[n]? = some q ∧ d.states.contains q = true ∧ ¬ d.IsReached q := by
  have hfilter := filter_findings_of_final hinitial rfl (show Issue.Code.unreachableFinalState ≠ _ by simp) strict
  by_cases h : d.ReachesFinal
  · apply ((toldAt_unreachableFinals h).of_filter hfilter).congr
    simp [h]
  · rw [unreachableFinals_of_not h] at hfilter
    apply ((Issue.toldAt_nil _).of_filter hfilter).congr
    simp [h]

end

/-! ## The states that are told of -/

/-- Issues of two codes tell of unreachable states: one of final states, the
other of all others. -/
theorem exists_unique_code {is : List Issue} (h : d.ReachesFinal)
    (hstates : ToldAt is .unreachableState fun l q =>
      ∃ n, l = .state n ∧ d.states[n]? = some q ∧ ¬ d.IsReached q ∧ d.finals.contains q = false)
    (hnone : ToldAt is .noFinalStateReachable fun l q => l = .finals ∧ q = .null ∧ ¬ d.ReachesFinal)
    (hfinals : ToldAt is .unreachableFinalState fun l q =>
      d.ReachesFinal ∧ ∃ n, l = .final n ∧ d.finals[n]? = some q ∧ d.states.contains q = true ∧ ¬ d.IsReached q)
    {q : Value} (hq : d.states.contains q = true) (hreached : ¬ d.IsReached q) :
    ∃! code, code.isLenient = true ∧ ∃ i ∈ is, i.code = code ∧ (i.state == q) = true := by
  have hof {p : Value} (hpq : (p == q) = true) : ¬ d.IsReached p := fun hp => hreached (hp.congr hpq)
  -- a code that tells of the state is fixed by whether the state is final
  have hcode {code : Issue.Code} (hlenient : code.isLenient = true) {i : Issue} (hi : i ∈ is) (hi' : i.code = code)
      (hpq : (i.state == q) = true) :
      code = if d.finals.contains q then .unreachableFinalState else .unreachableState := by
    rw [← contains_congr hpq]
    cases code with
    | unreachableState =>
      obtain ⟨n, _, _, _, hfinal⟩ := (hstates.exact _ _).mp ⟨i, hi, hi', rfl, rfl⟩
      rw [hfinal]; rfl
    | noFinalStateReachable =>
      obtain ⟨_, _, hnot⟩ := (hnone.exact _ _).mp ⟨i, hi, hi', rfl, rfl⟩
      exact absurd h hnot
    | unreachableFinalState =>
      obtain ⟨_, n, _, hfinal, _⟩ := (hfinals.exact _ _).mp ⟨i, hi, hi', rfl, rfl⟩
      rw [contains_of_mem (List.mem_of_getElem? hfinal)]; rfl
    | _ => cases hlenient
  refine ⟨if d.finals.contains q then .unreachableFinalState else .unreachableState, ?_, ?_⟩
  · by_cases hfinal : d.finals.contains q = true
    · obtain ⟨p, hp, hqp⟩ := List.contains_iff_exists_mem_beq.mp hfinal
      obtain ⟨n, hn⟩ := List.mem_iff_getElem?.mp hp
      obtain ⟨i, hi, hi', _, rfl⟩ := (hfinals.exact (.final n) p).mpr
        ⟨h, n, rfl, hn, contains_of_beq hq hqp, hof (BEq.symm hqp)⟩
      rw [if_pos hfinal]
      exact ⟨rfl, i, hi, hi', BEq.symm hqp⟩
    · obtain ⟨p, hp, hqp⟩ := List.contains_iff_exists_mem_beq.mp hq
      obtain ⟨n, hn⟩ := List.mem_iff_getElem?.mp hp
      obtain ⟨i, hi, hi', _, rfl⟩ := (hstates.exact (.state n) p).mpr
        ⟨n, rfl, hn, hof (BEq.symm hqp), by rw [← contains_congr hqp]; simpa using hfinal⟩
      rw [if_neg hfinal]
      exact ⟨rfl, i, hi, hi', BEq.symm hqp⟩
  · rintro code ⟨hlenient, i, hi, hi', hpq⟩
    exact hcode hlenient hi hi' hpq

/-- What a check that runs to its end tells about reachability, of any draft
of hashable labels. -/
theorem reachability_issues_exact (d : Draft) (h : d.isHashable = true) (kind? : Option Kind) (strict : Bool) :
    ∃ r, (d.withKind kind?).validate strict false = .ok r ∧
      (d.states.contains d.initial = false → ∀ i ∈ r.issues, i.code.isLenient = false) ∧
      (d.states.contains d.initial = true →
        ToldAt r.issues .unreachableState (fun l q =>
          ∃ n, l = .state n ∧ d.states[n]? = some q ∧ ¬ d.IsReached q ∧ d.finals.contains q = false) ∧
        ToldAt r.issues .noFinalStateReachable (fun l q => l = .finals ∧ q = .null ∧ ¬ d.ReachesFinal) ∧
        ToldAt r.issues .unreachableFinalState (fun l q => d.ReachesFinal ∧
          ∃ n, l = .final n ∧ d.finals[n]? = some q ∧ d.states.contains q = true ∧ ¬ d.IsReached q) ∧
        (d.ReachesFinal → ∀ q, d.states.contains q = true → ¬ d.IsReached q →
          ∃! code, code.isLenient = true ∧ ∃ i ∈ r.issues, i.code = code ∧ (i.state == q) = true)) := by
  have h : (d.withKind kind?).isHashable = true := h
  refine ⟨_, validate_of_isHashable h strict, ?_, ?_⟩
  · intro hinitial i hi
    obtain ⟨j, hj, rfl⟩ := List.mem_map.mp hi
    have hj := isLenient_eq_false_of_undeclared (d := d.withKind kind?) hinitial hj
    exact hj
  · intro hinitial
    have hstates := (toldAt_unreachableState (d := d.withKind kind?) hinitial strict).about (d.withKind kind?).id
    have hnone := (toldAt_noFinalStateReachable (d := d.withKind kind?) hinitial strict).about (d.withKind kind?).id
    have hfinals := (toldAt_unreachableFinalState (d := d.withKind kind?) hinitial strict).about (d.withKind kind?).id
    exact ⟨hstates, hnone, hfinals, fun hfinal q => exists_unique_code hfinal hstates hnone hfinals⟩

/-- The way to the reachable final state leads through an undeclared state,
and an unreachable state is declared under two equal labels. -/
def detour : Draft :=
  ⟨.nfa, [.int 0, .int 1, .int 2, .bool true, .int 3], [.text "a"], .int 0, [.int 2, .int 3],
    [⟨.int 0, .text "a", .int 7⟩, ⟨.int 7, epsilon, .int 2⟩, ⟨.int 3, .text "a", .int 1⟩]⟩

theorem reachability_issues_exact_detour : detour.isHashable = true ∧ ∃ r, detour.validate true false = .ok r ∧
    (∃ i ∈ r.issues, i.code = .unreachableState ∧ i.location = .state 3 ∧ i.state = .bool true) ∧
    (∃ i ∈ r.issues, i.code = .unreachableFinalState ∧ i.location = .final 1 ∧ i.state = .int 3) ∧
    ∀ i ∈ r.issues, i.code ≠ .noFinalStateReachable := by
  have h : detour.isHashable = true := by decide +kernel
  obtain ⟨r, hr, _, hdeclared⟩ := reachability_issues_exact detour h none true
  obtain ⟨hstates, hnone, hfinals, _⟩ := hdeclared (by decide +kernel)
  have hfinal : detour.ReachesFinal := meets_live_iff.mp (by decide +kernel)
  refine ⟨h, r, hr, ?_, ?_, ?_⟩
  · apply (hstates.exact _ _).mpr
    refine ⟨3, rfl, rfl, ?_, by decide +kernel⟩
    rw [← contains_live_iff_isReached (by decide +kernel)]
    decide +kernel
  · apply (hfinals.exact _ _).mpr
    refine ⟨hfinal, 1, rfl, rfl, by decide +kernel, ?_⟩
    rw [← contains_live_iff_isReached (by decide +kernel)]
    decide +kernel
  · intro i hi hcode
    obtain ⟨_, _, hnot⟩ := (hnone.exact _ _).mp ⟨i, hi, hcode, rfl, rfl⟩
    exact hnot hfinal

end Draft

end FiniteAutomata
