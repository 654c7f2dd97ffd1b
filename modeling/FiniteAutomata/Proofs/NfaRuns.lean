import FiniteAutomata.Automaton.Run
import FiniteAutomata.Proofs.Labels

/-!
# Nondeterministic runs

A run survives its word, or it dies at the first symbol after which no state
is left (`runNfaFrom_ends`). So a run computes what walks along the edges of
the draft describe: which states the word leads to, and how much of the word
leads anywhere (`runNfa_describes_walks`).
-/

namespace FiniteAutomata

@[simp]
theorem Verdict.ofBool_eq_accepted_iff {b : Bool} : Verdict.ofBool b = .accepted ↔ b = true := by
  cases b with
  | false => simp [ofBool]
  | true => simp [ofBool]

namespace Automaton

variable {A : Automaton}

theorem stepOn_eq_ok {qs : List Value} {a : Value} (hqs : ∀ q ∈ qs, q.isHashable = true)
    (ha : a.isHashable = true) : A.stepOn qs a = .ok (A.step qs a) := by
  have h : checkHashes (qs.flatMap fun q => [q, a]) = .ok () := by
    rw [checkHashes_eq_ok_iff]
    intro v hv
    obtain ⟨q, hq, hv⟩ := List.mem_flatMap.mp hv
    simp only [List.mem_cons, List.not_mem_nil, or_false] at hv
    rcases hv with rfl | rfl
    · exact hqs _ hq
    · exact ha
  simp [stepOn, h, Except.map]

theorem eq_of_map_eq_ok {β γ : Type} {checked : Except Fault β} {y z : γ}
    (h : (checked.map fun _ => y) = .ok z) : z = y := by
  cases checked with
  | error e => cases h
  | ok _ => cases h; rfl

theorem eq_step_of_stepOn {qs rs : List Value} {a : Value} (h : A.stepOn qs a = .ok rs) : rs = A.step qs a :=
  eq_of_map_eq_ok h

theorem eq_successors_of_successorsOf {q a : Value} {rs : List Value} (h : A.successorsOf q a = .ok rs) :
    rs = A.successors q a := eq_of_map_eq_ok h

/-- How a run from a configuration ends after `n` symbols. -/
inductive Ends (A : Automaton) (qs : List Value) (n : Nat) : List Value → Outcome → Prop
  | survived {w : List Value} : (w.foldl A.step qs).isEmpty = false →
      Ends A qs n w ⟨.ofBool (meets (w.foldl A.step qs) A.finals), w.foldl A.step qs, n + w.length⟩
  | died {u v : List Value} {a : Value} : (u.foldl A.step qs).isEmpty = false →
      (A.step (u.foldl A.step qs) a).isEmpty = true → Ends A qs n (u ++ a :: v) ⟨.rejected, [], n + u.length⟩

theorem runNfaFrom_ends {w qs : List Value} {n : Nat} (hne : qs.isEmpty = false) (hqs : A.IsStateSet qs)
    (hw : ∀ a ∈ w, a.isHashable = true) : ∃ o, (A.runNfaFrom qs n w).outcome = .ok o ∧ A.Ends qs n w o := by
  induction w generalizing qs n with
  | nil => exact ⟨_, rfl, .survived hne⟩
  | cons a w ih =>
    obtain ⟨ha, hw⟩ := List.forall_mem_cons.mp hw
    unfold runNfaFrom
    rw [stepOn_eq_ok hqs.isHashable ha]
    by_cases hd : (A.step qs a).isEmpty = true
    · simp only [hd, if_true]
      exact ⟨_, rfl, .died (u := []) hne hd⟩
    · simp only [hd]
      obtain ⟨o, ho, hends⟩ := ih (n := n + 1) (by simpa using hd) (isStateSet_step qs a) hw
      refine ⟨o, ho, ?_⟩
      have hlen (u : List Value) : n + 1 + u.length = n + (a :: u).length := by simp; omega
      cases hends with
      | survived h =>
        rw [hlen]
        exact .survived (w := a :: w) h
      | @died u v b h hb =>
        rw [hlen]
        exact .died (u := a :: u) h hb

theorem isEmpty_initialConfiguration : A.initialConfiguration.isEmpty = false := by
  unfold initialConfiguration
  rw [closure_isEmpty]; rfl

theorem runNfa_ends {w : List Value} (hw : ∀ a ∈ w, a.isHashable = true) :
    ∃ o, (A.runNfa w).outcome = .ok o ∧ A.Ends A.initialConfiguration 0 w o :=
  runNfaFrom_ends isEmpty_initialConfiguration isStateSet_initialConfiguration hw

/-! ## Faults -/

theorem stepOn_eq_error {qs : List Value} {a : Value} {e : Fault} (hne : qs.isEmpty = false)
    (hqs : ∀ q ∈ qs, q.isHashable = true) (ha : a.checkHash = .error e) : A.stepOn qs a = .error e := by
  cases qs with
  | nil => cases hne
  | cons q qs =>
    have hq := Value.checkHash_eq_ok (hqs q List.mem_cons_self)
    simp [stepOn, checkHashes, hq, ha, Except.map]

theorem runNfaFrom_eq_error_iff {w qs : List Value} {n : Nat} {e : Fault} (hne : qs.isEmpty = false)
    (hqs : A.IsStateSet qs) : (A.runNfaFrom qs n w).outcome = .error e ↔
      ∃ u a v, w = u ++ a :: v ∧ (∀ b ∈ u, b.isHashable = true) ∧ (u.foldl A.step qs).isEmpty = false ∧
        a.checkHash = .error e := by
  induction w generalizing qs n with
  | nil =>
    constructor
    · intro h; cases h
    · intro ⟨u, a, v, hw, _⟩
      cases u with
      | nil => cases hw
      | cons _ _ => cases hw
  | cons b w ih =>
    -- the symbol at fault is the first one, or a later one that the run gets to
    have hsplit : (∃ u a v, b :: w = u ++ a :: v ∧ (∀ b ∈ u, b.isHashable = true) ∧
        (u.foldl A.step qs).isEmpty = false ∧ a.checkHash = .error e) ↔
        b.checkHash = .error e ∨ b.isHashable = true ∧ ∃ u a v, w = u ++ a :: v ∧
          (∀ b ∈ u, b.isHashable = true) ∧ (u.foldl A.step (A.step qs b)).isEmpty = false ∧
            a.checkHash = .error e := by
      constructor
      · intro ⟨u, a, v, hw, hu, hlive, ha⟩
        cases u with
        | nil => cases hw; exact Or.inl ha
        | cons c u =>
          cases hw
          obtain ⟨hb, hu⟩ := List.forall_mem_cons.mp hu
          exact Or.inr ⟨hb, u, a, v, rfl, hu, hlive, ha⟩
      · rintro (hb | ⟨hb, u, a, v, rfl, hu, hlive, ha⟩)
        · exact ⟨[], b, w, rfl, List.forall_mem_nil _, hne, hb⟩
        · exact ⟨b :: u, a, v, rfl, List.forall_mem_cons.mpr ⟨hb, hu⟩, hlive, ha⟩
    rw [hsplit]
    unfold runNfaFrom
    rcases b.checkHash_cases with ⟨hb, hc⟩ | ⟨name, hb, hc⟩
    · rw [stepOn_eq_ok hqs.isHashable hb, hc]
      by_cases hd : (A.step qs b).isEmpty = true
      · simp only [hd, if_true]
        constructor
        · intro h; cases h
        · rintro (h | ⟨_, u, a, v, _, _, hlive, _⟩)
          · cases h
          · rw [List.isEmpty_iff.mp hd, foldl_step_nil] at hlive; cases hlive
      · have hstep := ih (n := n + 1) (by simpa using hd) (isStateSet_step qs b)
        simp only [hd, Bool.false_eq_true, if_false, Run.after, hstep, reduceCtorEq, false_or, hb, true_and]
    · rw [stepOn_eq_error hne hqs.isHashable hc, hb, hc]
      simp [Run.failed]

theorem runNfa_eq_error_iff {w : List Value} {e : Fault} : (A.runNfa w).outcome = .error e ↔
    ∃ u a v, w = u ++ a :: v ∧ (∀ b ∈ u, b.isHashable = true) ∧ (A.configuration u).isEmpty = false ∧
      a.checkHash = .error e :=
  runNfaFrom_eq_error_iff isEmpty_initialConfiguration isStateSet_initialConfiguration

/-! ## Runs and walks -/

theorem isEmpty_configuration_eq_false_iff {w : List Value} :
    (A.configuration w).isEmpty = false ↔ ∃ q, A.draft.Leads w q := by
  simp only [isEmpty_eq_false_iff_exists_contains, contains_configuration_iff]

theorem configuration_append (u v : List Value) :
    A.configuration (u ++ v) = v.foldl A.step (A.configuration u) := List.foldl_append

section
variable {u v : List Value} {a : Value} (h : (A.step (A.configuration u) a).isEmpty = true)
include h

theorem configuration_of_died : A.configuration (u ++ a :: v) = [] := by
  rw [configuration_append, List.foldl_cons, List.isEmpty_iff.mp h, foldl_step_nil]

theorem not_leads_of_died : ¬ ∃ q, A.draft.Leads (u ++ a :: v) q := by
  rw [← isEmpty_configuration_eq_false_iff, configuration_of_died h]
  simp

theorem le_length_of_leads_take {n : Nat} (hn : ∃ q, A.draft.Leads ((u ++ a :: v).take n) q) : n ≤ u.length := by
  apply Nat.le_of_not_lt
  intro hlt
  obtain ⟨k, rfl⟩ := Nat.exists_eq_add_of_lt hlt
  rw [Nat.add_assoc, List.take_length_add_append, List.take_succ_cons] at hn
  exact not_leads_of_died h hn

end

/-- The run on a word ends with what walks along the edges describe: it
accepts when one that spells the word leads to a final state, it consumes the
longest prefix that leads anywhere, and it reports all states that the whole
word leads to. -/
theorem runNfa_describes_walks (A : Automaton) (w : List Value) (hw : ∀ a ∈ w, a.isHashable = true) :
    ∃ o, (A.runNfa w).outcome = .ok o ∧
      (o.verdict = .accepted ↔ ∃ q, A.draft.Leads w q ∧ A.finals.contains q = true) ∧
      (o.consumed ≤ w.length ∧ (∃ q, A.draft.Leads (w.take o.consumed) q) ∧
        ∀ n ≤ w.length, (∃ q, A.draft.Leads (w.take n) q) → n ≤ o.consumed) ∧
      (o.consumed = w.length → ∀ q, o.finalStates.contains q = true ↔ A.draft.Leads w q) ∧
      (o.consumed < w.length → o.finalStates = []) := by
  obtain ⟨o, ho, hends⟩ := A.runNfa_ends hw
  refine ⟨o, ho, ?_⟩
  cases hends with
  | survived h =>
    rw [Nat.zero_add]
    have hleads : ∃ q, A.draft.Leads w q := isEmpty_configuration_eq_false_iff.mp h
    refine ⟨?_, ⟨Nat.le_refl _, by simpa using hleads, fun n hn _ => hn⟩, fun _ q => contains_configuration_iff, ?_⟩
    · show Verdict.ofBool (meets (A.configuration w) A.finals) = .accepted ↔ _
      simp only [Verdict.ofBool_eq_accepted_iff, meets_iff_exists_contains, contains_configuration_iff]
    · intro hlt
      exact absurd hlt (Nat.lt_irrefl _)
  | @died u v a h ha =>
    rw [Nat.zero_add]
    have hleads : ∃ q, A.draft.Leads u q := isEmpty_configuration_eq_false_iff.mp h
    have hlen : u.length < (u ++ a :: v).length := by simp
    refine ⟨?_, ⟨Nat.le_of_lt hlen, by simpa using hleads, fun n _ => le_length_of_leads_take ha⟩, ?_, fun _ => rfl⟩
    · constructor
      · intro hv; cases hv
      · intro ⟨q, hq, _⟩
        exact absurd ⟨q, hq⟩ (not_leads_of_died ha)
    · intro heq
      exact absurd heq (Nat.ne_of_lt hlen)

/-- Two states that lead to each other silently; the edge that reads a symbol
names the second in another way. -/
def silentLoop : Automaton :=
  .ofDraft ⟨.epsilonNfa, [.int 0, .int 1], [.text "a"], .int 0, [.int 1],
    [⟨.int 0, epsilon, .int 1⟩, ⟨.int 1, epsilon, .int 0⟩, ⟨.bool true, .text "a", .int 0⟩]⟩
    (by decide +kernel) (by decide +kernel)

theorem runNfa_describes_walks_silentLoop : (∀ a ∈ [Value.text "a", .text "a"], a.isHashable = true) ∧
    ∃ q, silentLoop.draft.Leads [.text "a", .text "a"] q ∧ silentLoop.finals.contains q = true := by
  have hw : ∀ a ∈ [Value.text "a", .text "a"], a.isHashable = true := by decide
  refine ⟨hw, ?_⟩
  obtain ⟨o, ho, hv, _⟩ := runNfa_describes_walks silentLoop [.text "a", .text "a"] hw
  have hverdict : silentLoop.verdict [.text "a", .text "a"] = .accepted := by decide +kernel
  unfold verdict at hverdict
  rw [ho] at hverdict
  exact hv.mp hverdict

end Automaton

end FiniteAutomata
