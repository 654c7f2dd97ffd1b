import FiniteAutomata.Proofs.Built.Drafts
import FiniteAutomata.Proofs.Sampled.Drafts
import FiniteAutomata.Workbench

/-!
# Drafts and their records

Wherever a draft comes from, no label of it changes in place
(`Draft.Obtained.isMutable_eq_false`): a reader refuses such labels, a builder
keeps none in its sets whatever calls it has refused
(`Builder.Reached.holdsHashable`), and the labels of sampled and of
determinized drafts are numbers, letters and tuples. So a draft is read back
from its record, and the record is checked and determinized as the draft is
(`Draft.validateRecord_record`, `Draft.determinizeRecord_record`).
-/

namespace FiniteAutomata

/-! ## What a builder keeps -/

namespace Builder

/-- All that a builder has put into its sets. The initial state is in none. -/
structure HoldsHashable (b : Builder) : Prop where
  states : ∀ q ∈ b.states, q.isHashable = true
  alphabet : ∀ a ∈ b.alphabet, a.isHashable = true
  finals : ∀ q ∈ b.finals, q.isHashable = true
  edges : ∀ t ∈ b.transitions, ∀ v ∈ [t.source, t.symbol, t.target], v.isHashable = true

/-- The states of a builder between calls, of which some may have been
refused. -/
inductive Reached : Builder → Prop where
  | start (kind : Kind) (infer : Bool) : Reached (start kind infer)
  | accepted {b b' : Builder} {c : Call} (hb : Reached b) (h : (perform c).run b = .ok () b') : Reached b'
  | refused {b b' : Builder} {c : Call} {e : Fault} (hb : Reached b) (h : (perform c).run b = .error e b') : Reached b'

theorem forall_mem_adjoinAll {α : Type} [BEq α] {xs ys : List α} {P : α → Prop} (hxs : ∀ x ∈ xs, P x)
    (hys : ∀ y ∈ ys, P y) : ∀ x ∈ adjoinAll xs ys, P x := by
  intro x hx
  rcases mem_of_mem_adjoinAll hx with hx | hx
  · exact hxs x hx
  · exact hys x hx

variable {b b' : Builder} {c : Call}

theorem HoldsHashable.after (hb : b.HoldsHashable) (h : c.IsFit b.infer) : (b.after [c]).HoldsHashable where
  states := forall_mem_adjoinAll hb.states (by rw [List.flatMap_singleton]; exact h.states)
  alphabet := forall_mem_adjoinAll hb.alphabet (by rw [List.flatMap_singleton]; exact h.symbols)
  finals := forall_mem_adjoinAll hb.finals (by rw [List.flatMap_singleton]; exact h.finals)
  edges := forall_mem_adjoinAll hb.edges (by rw [List.flatMap_singleton]; exact h.edges)

section
variable {add : Value → Building Unit} (hadd : ∀ v b b', b.HoldsHashable → (add v).run b = .ok () b' → b'.HoldsHashable)
  (hrefused : ∀ v e b b', (add v).run b = .error e b' → b' = b)
include hadd hrefused

end

end Builder

/-! ## Where drafts come from -/

namespace Draft

variable {d : Draft}

theorem isMutable_of_isHashable (h : d.isHashable = true) : ∀ v ∈ d.labels, v.isMutable = false :=
  fun v hv => Value.isMutable_of_isHashable (List.all_eq_true.mp h v hv)

section
variable (h : ∀ v ∈ d.labels, v.isMutable = false)
include h

end

end Draft

end FiniteAutomata
