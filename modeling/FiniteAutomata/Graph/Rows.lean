import FiniteAutomata.Collection.Equivalence
import FiniteAutomata.Draft.Basic

/-!
# Rows of targets

A finite map from keys to sets of labels, with the rows in order of their
first entry.
-/

namespace FiniteAutomata

abbrev Rows (κ : Type) := List (κ × List Value)

namespace Rows

variable {κ : Type} [BEq κ]

/-- Adds targets to the row of a key, which is made when there is none. -/
def extend (k : κ) (targets : List Value) : Rows κ → Rows κ
  | [] => [(k, distinct targets)]
  | (k', ts) :: rows =>
    if k' == k then (k', adjoinAll ts targets) :: rows else (k', ts) :: extend k targets rows

def replace (k : κ) (targets : List Value) : Rows κ → Rows κ
  | [] => [(k, distinct targets)]
  | (k', ts) :: rows => if k' == k then (k', distinct targets) :: rows else (k', ts) :: replace k targets rows

/-- The row of a key; a key without a row has no targets. -/
def targets (rows : Rows κ) (k : κ) : List Value :=
  match rows.find? (·.1 == k) with
  | some row => row.2
  | none => []

def allTargets (rows : Rows κ) : List Value := rows.flatMap Prod.snd

theorem mem_allTargets {rows : Rows κ} {k : κ} {q : Value} (h : q ∈ targets rows k) :
    q ∈ allTargets rows := by
  unfold targets at h
  cases hr : rows.find? (·.1 == k) with
  | none => rw [hr] at h; cases h
  | some row =>
    rw [hr] at h
    exact List.mem_flatMap.mpr ⟨row, List.mem_of_find?_eq_some hr, h⟩

theorem targets_nil (k : κ) : targets ([] : Rows κ) k = [] := rfl

theorem targets_cons (k k' : κ) (ts : List Value) (rows : Rows κ) :
    targets ((k', ts) :: rows) k = if k' == k then ts else targets rows k := by
  unfold targets
  rw [List.find?_cons]
  cases k' == k <;> simp

theorem targets_extend [EquivBEq κ] (k k' : κ) (ts : List Value) (rows : Rows κ) :
    targets (extend k ts rows) k' = if k == k' then adjoinAll (targets rows k') ts else targets rows k' := by
  induction rows with
  | nil =>
    rw [extend, targets_cons, targets_nil]; rfl
  | cons row rows ih =>
    obtain ⟨k₀, ts₀⟩ := row
    unfold extend
    by_cases h : (k₀ == k) = true
    · rw [if_pos h, targets_cons, targets_cons, BEq.congr_left h]
      split <;> rfl
    · rw [if_neg h, targets_cons, targets_cons, ih]
      by_cases h₀ : (k₀ == k') = true
      · have hk : ¬ (k == k') = true := fun hk => h (BEq.trans h₀ (BEq.symm hk))
        rw [if_pos h₀, if_pos h₀, if_neg hk]
      · rw [if_neg h₀, if_neg h₀]

end Rows

/-! ## The two tables of an edge list -/

def moves (ts : List Transition) : Rows (Value × Value) :=
  (ts.filter fun t => !t.isEpsilon).foldl (fun rows t => Rows.extend (t.source, t.symbol) [t.target] rows) []

def silentMoves (ts : List Transition) : Rows Value :=
  (ts.filter Transition.isEpsilon).foldl (fun rows t => Rows.extend t.source [t.target] rows) []

end FiniteAutomata
