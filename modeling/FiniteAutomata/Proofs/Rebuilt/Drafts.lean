import FiniteAutomata.Proofs.Rebuilt.Issues
import FiniteAutomata.Proofs.Records
import FiniteAutomata.Proofs.Subsets.SameSubsets

/-!
# Copies in place of drafts

A draft is written down as a record of copies of its labels, and what is read
back from there is a copy of the draft. A copy is checked and determinized as
the draft is (`Draft.record_stands_for_draft`), up to the words of issues and
the order of states in subsets: both depend on the order in which sets are
listed (`Draft.rebuilt_record_told_otherwise`).
-/

namespace FiniteAutomata

open List (Forall₂)

/-! ## Two results -/

namespace Agree

variable {α β : Type} {R : α → α → Prop} {S : β → β → Prop} {x y : Except Fault α}

theorem map (h : Agree R x y) {f g : α → β} (hfg : ∀ a b, R a b → S (f a) (g b)) : Agree S (x.map f) (y.map g) := by
  cases h with
  | failed fault => exact .failed fault
  | returned h => exact .returned (hfg _ _ h)

theorem bind (h : Agree R x y) {f g : α → Except Fault β} (hfg : ∀ a b, R a b → Agree S (f a) (g b)) :
    Agree S (x.bind f) (y.bind g) := by
  cases h with
  | failed fault => exact .failed fault
  | returned h => exact hfg _ _ h

end Agree

/-- The same report in other words, with related automata. -/
structure Report.Reworded (R : Automaton → Automaton → Prop) (r s : Report) : Prop where
  issues : Forall₂ Issue.Reworded r.issues s.issues
  defects : s.defects = r.defects
  automata : Option.Rel R r.automaton? s.automaton?

/-! ## Lookups and stages -/

theorem Transition.Rebuilt.hashed {t u : Transition} (h : t.Rebuilt u) : Forall₂ Value.Rebuilt t.hashed u.hashed := by
  unfold Transition.hashed
  rw [Transition.isEpsilon_congr h.beq]
  split
  · exact .cons h.source (.cons h.target .nil)
  · exact .cons h.source (.cons h.symbol (.cons h.target .nil))

namespace Draft

namespace Rebuilt

variable {d e : Draft} (h : d.Rebuilt e)
include h

theorem hashedFirst : Forall₂ Value.Rebuilt d.hashedFirst e.hashedFirst :=
  List.rel_append (List.rel_append (List.rel_flatMap h.transitions fun _ _ ht => ht.hashed) h.states)
    (.cons h.initial .nil)

theorem labels : Forall₂ Value.Rebuilt d.labels e.labels := by
  refine List.rel_append (List.rel_append (List.rel_append h.states h.alphabet) (.cons h.initial h.finals)) ?_
  exact List.rel_flatMap h.transitions fun _ _ ht => .cons ht.source (.cons ht.symbol (.cons ht.target .nil))

theorem beq : (d == e) = true := by
  have hstates : (d.states == e.states) = true := beq_iff_equalEach.mpr (equalEach_of_rebuilt h.states)
  have halphabet : (d.alphabet == e.alphabet) = true := beq_iff_equalEach.mpr (equalEach_of_rebuilt h.alphabet)
  have hfinals : (d.finals == e.finals) = true := beq_iff_equalEach.mpr (equalEach_of_rebuilt h.finals)
  have hedges : (d.transitions == e.transitions) = true := beq_iff_equalEach.mpr h.equalEach_transitions
  show (decide (d.kind = e.kind) && d.states == e.states && d.alphabet == e.alphabet && d.initial == e.initial &&
    d.finals == e.finals && d.transitions == e.transitions) = true
  rw [decide_eq_true h.kind.symm, hstates, halphabet, h.initial.beq, hfinals, hedges]; rfl

/-! ### Records -/

theorem record : d.record.Rebuilt e.record := by
  have hedges : Forall₂ Value.Rebuilt (d.transitions.map Transition.record) (e.transitions.map Transition.record) := by
    refine List.rel_map (fun t u ht => ?_) h.transitions
    exact ⟨_, ⟨_, _, ht.source, ⟨_, _, ht.symbol, ⟨_, _, ht.target, rfl, rfl⟩, rfl⟩, rfl⟩, rfl⟩
  have hlist {xs ys : List Value} (hxs : Forall₂ Value.Rebuilt xs ys) : (Value.list xs).Rebuilt (.list ys) :=
    ⟨ys, Value.rebuiltAll_iff.mpr hxs, rfl⟩
  have hkind : (Value.text d.kind.name).Rebuilt (.text e.kind.name) := by
    rw [h.kind]
    exact Value.Rebuilt.refl _
  exact ⟨_, ⟨_, _, hkind, ⟨_, _, hlist h.states, ⟨_, _, hlist h.alphabet, ⟨_, _, h.initial,
    ⟨_, _, hlist h.finals, ⟨_, _, hlist hedges, rfl, rfl⟩, rfl⟩, rfl⟩, rfl⟩, rfl⟩, rfl⟩, rfl⟩

theorem id_eq : e.id = d.id := by
  unfold id identifier
  rw [h.kind, h.record.canonicalText_eq]

end Rebuilt

end Draft

/-! ## Automata of copies -/

namespace Automaton

variable {A B D E : Automaton}

end Automaton

/-! ## Checks -/

namespace Draft

variable {d e : Draft}

section
variable (h : d.Rebuilt e)
include h

end

/-- The states are a set, one label is a tuple that holds a list, and the
edges are a tuple. -/
def looseRecord : Value := .record
  [(.text "kind", .text "dfa"), (.text "states", .set [.int 0, .tuple [.int 1]]),
    (.text "initial_state", .tuple [.int 0, .list [.null]]),
    (.text "transitions", .tuple [(Transition.mk (.int 0) (.text "a") (.tuple [.set []])).record])]

end Draft

end FiniteAutomata
