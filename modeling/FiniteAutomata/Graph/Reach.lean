import FiniteAutomata.Fault
import FiniteAutomata.Graph.Rows
import FiniteAutomata.Graph.Search.Lemmas
import FiniteAutomata.Value.Written

/-!
# Reachability and closure

The closure of some states under rows holds the states, is closed
(`closure_closed`) and holds nothing that is not reached
(`reaches_of_mem_closure`).
-/

namespace FiniteAutomata

def adjacency (moves : Rows (Value × Value)) (silent : Rows Value) : Rows Value :=
  let ofMoves : Rows Value := moves.foldl (fun rows row => Rows.extend row.1.1 row.2 rows) []
  let merged : Rows Value := silent.foldl (fun rows row => Rows.extend row.1 row.2 rows) ofMoves
  merged.map fun row => (row.1, Value.canonicalOrder row.2)

def closure (rows : Rows Value) (starts : List Value) : List Value :=
  explore rows.targets (starts.length + rows.allTargets.length) starts

theorem contains_append_allTargets {rows : Rows Value} (starts : List Value) {q r : Value} (hr : r ∈ rows.targets q) :
    (starts ++ rows.allTargets).contains r = true :=
  List.contains_iff_exists_mem_beq.mpr ⟨r, List.mem_append_right _ (Rows.mem_allTargets hr), BEq.rfl⟩

theorem closure_closed (rows : Rows Value) (starts : List Value) :
    (∀ q ∈ starts, (closure rows starts).contains q = true) ∧
      ∀ q ∈ closure rows starts, ∀ r ∈ rows.targets q, (closure rows starts).contains r = true := by
  refine explore_closed (u := starts ++ rows.allTargets) ?_ ?_ (Nat.le_of_eq List.length_append)
  · exact fun _ _ _ => contains_append_allTargets starts
  · intro q hq
    exact List.contains_iff_exists_mem_beq.mpr ⟨q, List.mem_append_left _ hq, BEq.rfl⟩

theorem reaches_of_mem_closure {rows : Rows Value} {starts : List Value} {q : Value}
    (h : q ∈ closure rows starts) : Reaches rows.targets starts q := reaches_of_mem_explore h

def reachable (adjacent : Rows Value) (start : Value) : List Value := closure adjacent [start]

/-- The states connected to a start by a list of edges, whatever their
labels. -/
def reachableBy (ts : List Transition) (start : Value) : List Value :=
  reachable (adjacency (moves ts) (silentMoves ts)) start

/-! ## Lookups of any value -/

def tablesOf (ts : List Transition) : Except Fault (Rows (Value × Value) × Rows Value) :=
  (checkHashes (ts.flatMap Transition.hashed)).map fun _ => (moves ts, silentMoves ts)

def reachableOf (adjacent : Rows Value) (start : Value) : Except Fault (List Value) :=
  start.checkHash.map fun _ => reachable adjacent start

/-! ## Listings -/

def listedSilent (rows : Rows Value) : List (Value × List Value) :=
  (sortOn (fun row => row.1.orderKey) OrderKey.lt rows).map fun row => (row.1, Value.canonicalOrder row.2)

def listedMoves (rows : Rows (Value × Value)) : List ((Value × Value) × List Value) :=
  (sortOn (fun row => (row.1.1.orderKey, row.1.2.orderKey)) OrderKey.pairLt rows).map fun row =>
    (row.1, Value.canonicalOrder row.2)

end FiniteAutomata
