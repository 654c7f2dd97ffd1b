import FiniteAutomata.Draft.Kind
import FiniteAutomata.Value.Key

/-!
# Drafts

Declarations and raw edges as they were given. Whether they fit together is a
question of its own.
-/

namespace FiniteAutomata

/-- The label of a move that reads no symbol. It belongs to no alphabet. -/
def epsilon : Value := .text "ε"

structure Transition where
  source : Value
  symbol : Value
  target : Value
  deriving Inhabited

namespace Transition

def isEpsilon (t : Transition) : Bool := t.symbol == epsilon

def hashed (t : Transition) : List Value :=
  if t.isEpsilon then [t.source, t.target] else [t.source, t.symbol, t.target]

theorem mem_hashed {t : Transition} {v : Value} (h : v ∈ t.hashed) : v = t.source ∨ v = t.symbol ∨ v = t.target := by
  unfold hashed at h
  split at h
  · simp only [List.mem_cons, List.not_mem_nil, or_false] at h
    exact h.imp_right .inr
  · simpa using h

instance : BEq Transition :=
  ⟨fun t u => t.source == u.source && t.symbol == u.symbol && t.target == u.target⟩

theorem beq_iff {t u : Transition} : (t == u) = true ↔
    (t.source == u.source) = true ∧ (t.symbol == u.symbol) = true ∧ (t.target == u.target) = true := by
  show (t.source == u.source && t.symbol == u.symbol && t.target == u.target) = true ↔ _
  rw [Bool.and_eq_true, Bool.and_eq_true, and_assoc]

instance : EquivBEq Transition where
  rfl := beq_iff.mpr ⟨BEq.rfl, BEq.rfl, BEq.rfl⟩
  symm h := by
    obtain ⟨hs, ha, ht⟩ := beq_iff.mp h
    exact beq_iff.mpr ⟨BEq.symm hs, BEq.symm ha, BEq.symm ht⟩
  trans h h' := by
    obtain ⟨hs, ha, ht⟩ := beq_iff.mp h
    obtain ⟨hs', ha', ht'⟩ := beq_iff.mp h'
    exact beq_iff.mpr ⟨BEq.trans hs hs', BEq.trans ha ha', BEq.trans ht ht'⟩

theorem isEpsilon_congr {t u : Transition} (h : (t == u) = true) : t.isEpsilon = u.isEpsilon :=
  BEq.congr_left (beq_iff.mp h).2.1

end Transition

structure Draft where
  kind : Kind
  states : List Value
  alphabet : List Value
  initial : Value
  finals : List Value
  transitions : List Transition
  deriving Inhabited

namespace Draft

instance : BEq Draft :=
  ⟨fun d e => decide (d.kind = e.kind) && d.states == e.states && d.alphabet == e.alphabet && d.initial == e.initial &&
    d.finals == e.finals && d.transitions == e.transitions⟩

def labels (d : Draft) : List Value :=
  d.states ++ d.alphabet ++ d.initial :: d.finals ++
    d.transitions.flatMap fun t => [t.source, t.symbol, t.target]

def isHashable (d : Draft) : Bool := d.labels.all Value.isHashable

theorem forall_labels {d : Draft} {P : Value → Prop} : (∀ v ∈ d.labels, P v) ↔
    (∀ v ∈ d.states, P v) ∧ (∀ v ∈ d.alphabet, P v) ∧ P d.initial ∧ (∀ v ∈ d.finals, P v) ∧
      ∀ t ∈ d.transitions, P t.source ∧ P t.symbol ∧ P t.target := by
  simp only [labels, List.forall_mem_append, List.forall_mem_cons, List.forall_mem_flatMap, List.not_mem_nil,
    false_implies, implies_true, and_true, and_assoc]

end Draft

end FiniteAutomata
