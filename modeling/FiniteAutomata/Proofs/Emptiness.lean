import FiniteAutomata.Automaton.Probe
import FiniteAutomata.Proofs.Liveness

/-!
# Automata that accept nothing

The search for a shortest accepted word goes through every configuration that
can be reached (`contains_reached`) up to the first accepting one
(`shortestAccepted?_eq`), so it finds none exactly when no word is accepted.
The reachability check, runs and this search agree
(`liveness_agrees_with_simulation`).
-/

namespace FiniteAutomata

theorem reached_beq_iff {r s : Reached} : (r == s) = true ↔ SameSet r.configuration s.configuration :=
  sameMembers_iff

instance : EquivBEq Reached where
  rfl := reached_beq_iff.mpr (SameSet.refl _)
  symm h := reached_beq_iff.mpr (reached_beq_iff.mp h).symm
  trans h h' := reached_beq_iff.mpr ((reached_beq_iff.mp h).trans (reached_beq_iff.mp h'))

namespace Automaton

variable {A : Automaton}

theorem mem_successorsOfReached {r s : Reached} : s ∈ A.successorsOfReached r ↔
    ∃ a ∈ A.alphabet, (A.step r.configuration a).isEmpty = false ∧
      s = ⟨A.step r.configuration a, r.word ++ [a]⟩ := mem_filterMap_symbols

/-! ## Soundness of the search -/

theorem spec_of_reaches {r : Reached} (h : Reaches A.successorsOfReached [⟨A.initialConfiguration, []⟩] r) :
    A.IsOverAlphabet r.word ∧ r.configuration = A.configuration r.word := by
  induction h with
  | start hx =>
    rw [List.mem_singleton.mp hx]
    exact ⟨isOverAlphabet_nil, rfl⟩
  | step _ hs ih =>
    obtain ⟨a, ha, _, rfl⟩ := mem_successorsOfReached.mp hs
    obtain ⟨hw, hc⟩ := ih
    refine ⟨hw.concat ha, ?_⟩
    rw [configuration_append, ← hc]; rfl

/-! ## Completeness of the search -/

def reachedSupply (A : Automaton) : List Reached := (listsUpTo A.stateLabels A.labelCount).map fun qs => ⟨qs, []⟩

theorem contains_reachedSupply {r : Reached} (h : A.IsStateSet r.configuration) :
    A.reachedSupply.contains r = true :=
  contains_map_listsUpTo h fun _ heq => reached_beq_iff.mpr (sameSet_of_beq heq)

theorem contains_reachedSupply_of_mem {r s : Reached} (h : s ∈ A.successorsOfReached r) :
    A.reachedSupply.contains s = true := by
  obtain ⟨a, _, _, rfl⟩ := mem_successorsOfReached.mp h
  exact contains_reachedSupply (isStateSet_step _ a)

theorem length_reachedSupply_le (A : Automaton) : A.reachedSupply.length ≤ listsBound A.labelCount := by
  unfold reachedSupply
  rw [List.length_map]
  exact length_listsUpTo_stateLabels

theorem contains_successorsOfReached_congr {r r' : Reached} (h : (r == r') = true) {s : Reached}
    (hs : s ∈ A.successorsOfReached r) : (A.successorsOfReached r').contains s = true := by
  obtain ⟨a, ha, hne, rfl⟩ := mem_successorsOfReached.mp hs
  have hstep : SameSet (A.step r.configuration a) (A.step r'.configuration a) :=
    sameSet_step (reached_beq_iff.mp h) BEq.rfl
  refine List.contains_iff_exists_mem_beq.mpr ⟨_, mem_successorsOfReached.mpr ⟨a, ha, ?_, rfl⟩, ?_⟩
  · rw [← hstep.isEmpty_eq]; exact hne
  · exact reached_beq_iff.mpr hstep

theorem reaches_configuration {w : List Value} (hw : A.IsOverAlphabet w)
    (hne : (A.configuration w).isEmpty = false) :
    Reaches A.successorsOfReached [⟨A.initialConfiguration, []⟩] ⟨A.configuration w, w⟩ := by
  have h : ∀ (v : List Value) (r : Reached), (∀ a ∈ v, a ∈ A.alphabet) →
      (v.foldl A.step r.configuration).isEmpty = false →
      Reaches A.successorsOfReached [⟨A.initialConfiguration, []⟩] r →
      Reaches A.successorsOfReached [⟨A.initialConfiguration, []⟩] ⟨v.foldl A.step r.configuration, r.word ++ v⟩ := by
    intro v
    induction v with
    | nil =>
      intro r _ _ hr
      rw [List.append_nil]
      exact hr
    | cons a v ih =>
      intro r hv hne hr
      obtain ⟨ha, hv⟩ := List.forall_mem_cons.mp hv
      rw [List.append_cons]
      exact ih ⟨_, r.word ++ [a]⟩ hv hne
        (hr.step (mem_successorsOfReached.mpr ⟨a, ha, isEmpty_step_of_foldl hne, rfl⟩))
  exact h w ⟨A.initialConfiguration, []⟩ hw hne (.start (List.mem_singleton.mpr rfl))

def reached (A : Automaton) : List Reached :=
  explore A.successorsOfReached (listsBound A.labelCount) [⟨A.initialConfiguration, []⟩]

theorem contains_reached {r : Reached} (h : Reaches A.successorsOfReached [⟨A.initialConfiguration, []⟩] r) :
    A.reached.contains r = true := by
  refine contains_explore_of_reaches (u := A.reachedSupply) (fun _ _ hrr _ => contains_successorsOfReached_congr hrr)
    (fun _ _ _ hs => contains_reachedSupply_of_mem hs) ?_ A.length_reachedSupply_le h
  intro s hs
  rw [List.mem_singleton.mp hs]
  exact contains_reachedSupply isStateSet_initialConfiguration

/-! ## The result of the search -/

theorem shortestAccepted?_eq (A : Automaton) :
    A.shortestAccepted? = (A.reached.find? A.isAccepting).map Reached.word := by
  unfold shortestAccepted? searched
  dsimp only
  rw [find?_visit]; rfl

theorem shortestAccepted?_eq_none_iff : A.shortestAccepted? = none ↔ ∀ w, ¬ A.Accepts w := by
  rw [shortestAccepted?_eq, Option.map_eq_none_iff, List.find?_eq_none, ← not_exists, exists_accepts_iff]
  constructor
  · intro h ⟨w, hw, hm⟩
    have hc := contains_reached (reaches_configuration hw (isEmpty_eq_false_of_meets hm))
    obtain ⟨r, hr, hsame⟩ := List.contains_iff_exists_mem_beq.mp hc
    refine h r hr ?_
    unfold isAccepting
    rw [← (reached_beq_iff.mp hsame).meets_eq]
    exact hm
  · intro h r hr ha
    obtain ⟨hw, hc⟩ := spec_of_reaches (reaches_of_mem_explore hr)
    unfold isAccepting at ha
    rw [hc] at ha
    exact h ⟨r.word, hw, ha⟩

/-! ## Agreement -/

/-- The states that the reachability check takes to be live are those that
some word over the alphabet leads to. It tells that no final state is
reachable exactly when no word is accepted, and exactly then the search for a
shortest accepted word finds none. -/
theorem liveness_agrees_with_simulation (A : Automaton) :
    (∃ live, A.draft.live? = some live ∧ ∀ q, live.contains q = true ↔
      ∃ w, A.IsOverAlphabet w ∧ w.foldlM A.stepOn A.initialConfiguration = .ok (A.configuration w) ∧
        (A.configuration w).contains q = true) ∧
      ((∃ i ∈ A.issues, i.code = .noFinalStateReachable) ↔ ∀ w, ¬ A.Accepts w) ∧
      (A.shortestAccepted? = none ↔ ∀ w, ¬ A.Accepts w) := by
  refine ⟨⟨_, A.wellFormed.live?_eq, fun q => ?_⟩, exists_noFinalStateReachable_iff, shortestAccepted?_eq_none_iff⟩
  rw [contains_live_iff]
  apply exists_congr; intro w
  apply and_congr_right; intro hw
  have hfold : w.foldlM A.stepOn A.initialConfiguration = .ok (A.configuration w) :=
    foldlM_stepOn isStateSet_initialConfiguration hw.isHashable
  rw [and_iff_right hfold]

end Automaton

end FiniteAutomata
