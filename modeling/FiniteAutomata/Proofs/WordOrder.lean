import FiniteAutomata.Proofs.Acceptance
import FiniteAutomata.Proofs.SearchOrder
import Mathlib.Data.List.Shortlex
import Mathlib.Data.Prod.Lex

/-!
# The order of words

Words are compared by length and then symbol by symbol, a symbol by its place
in the canonical order of the alphabet. A search whose nodes carry the word
that leads to them, and lengthen it by one symbol after the other, finds them
in that order (`layered_symbols`).
-/

namespace FiniteAutomata

/-! ## Shortlex -/

def shortlexRank (w : List Nat) : ℕ ×ₗ List ℕ := toLex (w.length, w)

theorem shortlexRank_lt_iff {v w : List Nat} : shortlexRank v < shortlexRank w ↔ List.Shortlex (· < ·) v w := by
  unfold shortlexRank
  rw [Prod.Lex.toLex_lt_toLex, List.shortlex_def]
  exact Iff.rfl

theorem shortlexRank_lt_of_length {v w : List Nat} (h : v.length < w.length) : shortlexRank v < shortlexRank w :=
  shortlexRank_lt_iff.mpr (.of_length_lt h)

theorem shortlexRank_concat_lt {v w : List Nat} (h : shortlexRank v < shortlexRank w) (k l : Nat) :
    shortlexRank (v ++ [k]) < shortlexRank (w ++ [l]) := by
  rw [shortlexRank_lt_iff, List.shortlex_def] at h ⊢
  rw [List.length_append, List.length_append, List.length_singleton, List.length_singleton]
  rcases h with hlen | ⟨hlen, hlex⟩
  · exact Or.inl (Nat.succ_lt_succ hlen)
  · refine Or.inr ⟨congrArg (· + 1) hlen, ?_⟩
    -- words of one length differ at some place, and what follows it does not count
    induction hlex with
    | nil => cases hlen
    | rel hlt => exact .rel hlt
    | cons _ ih => exact .cons (ih (Nat.succ.inj hlen))

theorem shortlexRank_concat_of_lt (v : List Nat) {k l : Nat} (h : k < l) :
    shortlexRank (v ++ [k]) < shortlexRank (v ++ [l]) :=
  shortlexRank_lt_iff.mpr (((List.shortlex_singleton_iff k l).mpr h).append_left v)

theorem shortlexRank_concat_le {v w : List Nat} (h : shortlexRank v ≤ shortlexRank w) (k : Nat) :
    shortlexRank (v ++ [k]) ≤ shortlexRank (w ++ [k]) := by
  rcases lt_or_eq_of_le h with hlt | heq
  · exact (shortlexRank_concat_lt hlt k k).le
  · have hvw : v = w := congrArg Prod.snd (toLex.injective heq)
    rw [hvw]

/-! ## Places -/

theorem idxOf_congr (xs : List Value) {a b : Value} (h : (a == b) = true) : xs.idxOf a = xs.idxOf b := by
  have heq : (fun x => x == a) = fun x => x == b := funext fun x => BEq.congr_right h
  unfold List.idxOf
  rw [heq]

namespace Automaton

variable (A : Automaton)

def positions (w : List Value) : List Nat := w.map A.symbols.idxOf

/-- The first word is shorter, or as long and before the second one symbol by
symbol. -/
def Earlier (v w : List Value) : Prop := List.Shortlex (· < ·) (A.positions v) (A.positions w)

def wordRank (w : List Value) : ℕ ×ₗ List ℕ := shortlexRank (A.positions w)

variable {A}

theorem length_positions (w : List Value) : (A.positions w).length = w.length := by
  simp [positions]

theorem earlier_iff {v w : List Value} : A.Earlier v w ↔ A.wordRank v < A.wordRank w := shortlexRank_lt_iff.symm

theorem positions_congr {v w : List Value} (h : (v == w) = true) : A.positions v = A.positions w := by
  induction v generalizing w with
  | nil => rw [list_beq_nil_iff.mp (BEq.symm h)]
  | cons a v ih =>
    cases w with
    | nil => cases h
    | cons b w =>
      obtain ⟨hab, hvw⟩ := list_beq_cons_iff.mp h
      unfold positions
      rw [List.map_cons, List.map_cons, idxOf_congr _ hab]
      exact congrArg _ (ih hvw)

theorem wordRank_congr {v w : List Value} (h : (v == w) = true) : A.wordRank v = A.wordRank w := by
  unfold wordRank
  rw [positions_congr h]

theorem wordRank_concat (w : List Value) (a : Value) :
    A.wordRank (w ++ [a]) = shortlexRank (A.positions w ++ [A.symbols.idxOf a]) := by
  unfold wordRank positions
  rw [List.map_append, List.map_singleton]

theorem wordRank_concat_le {v w : List Value} (h : A.wordRank v ≤ A.wordRank w) (a : Value) :
    A.wordRank (v ++ [a]) ≤ A.wordRank (w ++ [a]) := by
  rw [wordRank_concat, wordRank_concat]
  exact shortlexRank_concat_le h _

theorem isDistinct_symbols (A : Automaton) : IsDistinct A.symbols :=
  isDistinct_canonicalOrder (isDistinct_distinct _)

/-- The nodes of a search by words rank as their words do. -/
theorem layered_symbols {α : Type} {next : α → List α} {word : α → List Value} {extend : α → Value → Option α}
    (hnext : ∀ x, next x = A.symbols.filterMap (extend x))
    (hword : ∀ x a y, extend x a = some y → word y = word x ++ [a]) : Layered next fun x => A.wordRank (word x) := by
  have hmem {x y : α} (hy : y ∈ next x) : ∃ a, word y = word x ++ [a] := by
    rw [hnext, List.mem_filterMap] at hy
    obtain ⟨a, _, ha⟩ := hy
    exact ⟨a, hword x a y ha⟩
  have hlength {x y : α} (hy : y ∈ next x) : (A.positions (word y)).length = (A.positions (word x)).length + 1 := by
    obtain ⟨a, ha⟩ := hmem hy
    simp [length_positions, ha]
  constructor
  · intro x
    rw [hnext, List.pairwise_filterMap]
    refine A.isDistinct_symbols.pairwise_idxOf.imp fun hlt y hy z hz => ?_
    rw [hword x _ y hy, hword x _ z hz, wordRank_concat, wordRank_concat]
    exact shortlexRank_concat_of_lt _ hlt
  · intro x y hy
    refine shortlexRank_lt_of_length ?_
    rw [hlength hy]
    exact Nat.lt_succ_self _
  · intro x x' hlt y hy y' hy'
    obtain ⟨a, ha⟩ := hmem hy
    obtain ⟨b, hb⟩ := hmem hy'
    rw [ha, hb, wordRank_concat, wordRank_concat]
    exact shortlexRank_concat_lt hlt _ _
  · intro x y hy x' hx' z hz
    refine shortlexRank_lt_of_length ?_
    rw [hlength hy, hlength hz, hlength hx']
    exact Nat.lt_succ_self _

end Automaton

end FiniteAutomata
