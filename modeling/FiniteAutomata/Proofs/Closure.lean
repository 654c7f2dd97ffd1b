import FiniteAutomata.Proofs.Tables
import Mathlib.Logic.Relation

/-!
# Closures

The closure of a set under rows is the least set that holds it and that no row
leads out of (`isLeastKept_closure`). So it is what chains of steps along the
rows lead to (`contains_closure_iff`), and it depends on sets alone and not on
how they are listed (`closure_is_least`).
-/

namespace FiniteAutomata

namespace Rows

def Leads (rows : Rows Value) (p q : Value) : Prop := (rows.targets p).contains q = true

/-- No row leads out of the set. -/
def Keeps (rows : Rows Value) (qs : List Value) : Prop :=
  ∀ p q, qs.contains p = true → rows.Leads p q → qs.contains q = true

structure IsLeastKept (rows : Rows Value) (starts qs : List Value) : Prop where
  holds : subsetOf starts qs = true
  kept : rows.Keeps qs
  least : ∀ rs, subsetOf starts rs = true → rows.Keeps rs → subsetOf qs rs = true

variable {rows rows' : Rows Value} {qs rs : List Value}

theorem Leads.congr {p p' q q' : Value} (h : rows.Leads p q) (hp : (p == p') = true) (hq : (q == q') = true) :
    rows.Leads p' q' := by
  unfold Leads at h ⊢
  rw [← targets_congr rows hp]
  exact contains_of_beq h hq

theorem Keeps.append (hq : rows.Keeps qs) (hr : rows.Keeps rs) : rows.Keeps (qs ++ rs) := by
  intro p q hp hpq
  rw [List.contains_append, Bool.or_eq_true] at hp ⊢
  exact hp.imp (hq p q · hpq) (hr p q · hpq)

theorem Keeps.of_leads (h : rows'.Keeps qs) (hrows : ∀ p q, rows.Leads p q → rows'.Leads p q) : rows.Keeps qs :=
  fun p q hp hpq => h p q hp (hrows p q hpq)

theorem Keeps.contains_of_reflTransGen (h : rows.Keeps qs) {p q : Value} (hp : qs.contains p = true)
    (hpq : Relation.ReflTransGen rows.Leads p q) : qs.contains q = true := by
  induction hpq with
  | refl => exact hp
  | tail _ hstep ih => exact h _ _ ih hstep

end Rows

section
variable {rows rows' : Rows Value} {S T : List Value}

/-! ## The least set -/

theorem subsetOf_closure (rows : Rows Value) (S : List Value) : subsetOf S (closure rows S) = true :=
  subsetOf_iff.mpr (closure_closed rows S).1

theorem keeps_closure (rows : Rows Value) (S : List Value) : rows.Keeps (closure rows S) := by
  intro p q hp hpq
  obtain ⟨p', hp', hpp⟩ := List.contains_iff_exists_mem_beq.mp hp
  obtain ⟨r, hr, hqr⟩ := List.contains_iff_exists_mem_beq.mp (hpq.congr hpp BEq.rfl)
  exact contains_of_beq ((closure_closed rows S).2 p' hp' r hr) (BEq.symm hqr)

theorem subsetOf_of_keeps (hS : subsetOf S T = true) (hT : rows.Keeps T) : subsetOf (closure rows S) T = true := by
  rw [subsetOf_iff] at hS ⊢
  intro q hq
  have hreaches := reaches_of_mem_closure hq
  clear hq
  induction hreaches with
  | start hq => exact hS _ hq
  | step _ hr ih => exact hT _ _ ih (contains_of_mem hr)

theorem isLeastKept_closure (rows : Rows Value) (S : List Value) : rows.IsLeastKept S (closure rows S) where
  holds := subsetOf_closure rows S
  kept := keeps_closure rows S
  least := fun _ => subsetOf_of_keeps

theorem contains_closure_iff {q : Value} :
    (closure rows S).contains q = true ↔ ∃ p, S.contains p = true ∧ Relation.ReflTransGen rows.Leads p q := by
  constructor
  · intro h
    obtain ⟨q', hq', hqq⟩ := List.contains_iff_exists_mem_beq.mp h
    have hreaches := reaches_of_mem_closure hq'
    clear h hq'
    -- the last step may end in the equal state as well
    induction hreaches generalizing q with
    | start hq' => exact ⟨q, contains_of_beq (contains_of_mem hq') (BEq.symm hqq), .refl⟩
    | step _ hr ih =>
      obtain ⟨p, hp, hpath⟩ := ih BEq.rfl
      exact ⟨p, hp, hpath.tail (Rows.Leads.congr (contains_of_mem hr) BEq.rfl (BEq.symm hqq))⟩
  · intro ⟨p, hp, hpath⟩
    exact (keeps_closure rows S).contains_of_reflTransGen
      (subsetOf_iff_contains.mp (subsetOf_closure rows S) p hp) hpath

/-! ## Closures of related sets -/

theorem closure_mono (h : subsetOf S T = true) : subsetOf (closure rows S) (closure rows T) = true :=
  subsetOf_of_keeps (subsetOf_trans h (subsetOf_closure rows T)) (keeps_closure rows T)

theorem closure_mono_rows (hrows : ∀ p q, rows.Leads p q → rows'.Leads p q) (S : List Value) :
    subsetOf (closure rows S) (closure rows' S) = true :=
  subsetOf_of_keeps (subsetOf_closure rows' S) ((keeps_closure rows' S).of_leads hrows)

theorem sameSet_closure_of_sameSet (h : SameSet S T) : SameSet (closure rows S) (closure rows T) := by
  rw [sameSet_iff_subsetOf] at h ⊢
  exact ⟨closure_mono h.1, closure_mono h.2⟩

theorem sameSet_closure_closure (rows : Rows Value) (S : List Value) :
    SameSet (closure rows (closure rows S)) (closure rows S) :=
  sameSet_iff_subsetOf.mpr ⟨subsetOf_of_keeps (subsetOf_refl _) (keeps_closure rows S), subsetOf_closure rows _⟩

theorem sameSet_closure_append (rows : Rows Value) (S T : List Value) :
    SameSet (closure rows (S ++ T)) (closure rows S ++ closure rows T) := by
  rw [sameSet_iff_subsetOf]
  constructor
  · refine subsetOf_of_keeps ?_ ((keeps_closure rows S).append (keeps_closure rows T))
    rw [subsetOf_append_iff]
    exact ⟨subsetOf_trans (subsetOf_closure rows S) (subsetOf_append_left _ _),
      subsetOf_trans (subsetOf_closure rows T) (subsetOf_append_right _ _)⟩
  · rw [subsetOf_append_iff]
    exact ⟨closure_mono (subsetOf_append_left S T), closure_mono (subsetOf_append_right S T)⟩

end

/-- The closure of a set under rows, whatever these are, is the least set that
holds it and that no row leads out of, so exactly what chains of steps lead to
from it. The order and the repetition of its elements do not count. Closing
again adds nothing, more elements or more steps take nothing away, and a union
is closed part by part. -/
theorem closure_is_least (rows : Rows Value) (S : List Value) :
    rows.IsLeastKept S (closure rows S) ∧
      (∀ q, (closure rows S).contains q = true ↔
        ∃ p, S.contains p = true ∧ Relation.ReflTransGen rows.Leads p q) ∧
      (∀ T, SameSet S T → SameSet (closure rows S) (closure rows T)) ∧
      SameSet (closure rows (closure rows S)) (closure rows S) ∧
      (∀ T, subsetOf S T = true → subsetOf (closure rows S) (closure rows T) = true) ∧
      (∀ rows' : Rows Value, (∀ p q, rows.Leads p q → rows'.Leads p q) →
        subsetOf (closure rows S) (closure rows' S) = true) ∧
      ∀ T, SameSet (closure rows (S ++ T)) (closure rows S ++ closure rows T) :=
  ⟨isLeastKept_closure rows S, fun _ => contains_closure_iff, fun _ => sameSet_closure_of_sameSet,
    sameSet_closure_closure rows S, fun _ => closure_mono, fun _ hrows => closure_mono_rows hrows S,
    sameSet_closure_append rows S⟩

/-- A cycle, one of whose states is named in two ways, and a way out of it. -/
def cycle : Rows Value := [(.int 0, [.int 1]), (.bool true, [.int 0, .int 2])]

theorem closure_is_least_cycle : SameSet [Value.int 1, .int 0, .int 1] [.bool false, .int 1] ∧
    SameSet (closure cycle [.int 1, .int 0, .int 1]) (closure cycle [.bool false, .int 1]) ∧
    ∃ p, [Value.bool false, .int 1].contains p = true ∧ Relation.ReflTransGen cycle.Leads p (.int 2) := by
  have hsame : SameSet [Value.int 1, .int 0, .int 1] [.bool false, .int 1] := sameMembers_iff.mp (by decide +kernel)
  obtain ⟨_, hreached, _⟩ := closure_is_least cycle [.bool false, .int 1]
  obtain ⟨_, _, hlists, _⟩ := closure_is_least cycle [.int 1, .int 0, .int 1]
  exact ⟨hsame, hlists _ hsame, (hreached (.int 2)).mp (by decide +kernel)⟩

end FiniteAutomata
