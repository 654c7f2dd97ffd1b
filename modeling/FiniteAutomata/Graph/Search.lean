import FiniteAutomata.Collection.Distinct

/-!
# Breadth-first search

Nodes wait in a queue. A node joins the queue when no equal node has joined it
before, and the search ends at the first node that is wanted or when the queue
is empty.
-/

namespace FiniteAutomata

variable {α : Type} [BEq α]

def unseen (seen : List α) : List α → List α
  | [] => []
  | x :: xs => if seen.contains x then unseen seen xs else x :: unseen (seen ++ [x]) xs

/-- The nodes in the order they leave the queue, up to and including the first
wanted one. -/
def visit (next : α → List α) (wanted : α → Bool) : Nat → List α → List α → List α
  | 0, _, _ => []
  | _ + 1, _, [] => []
  | fuel + 1, seen, x :: queue =>
    if wanted x then [x]
    else
      let fresh := unseen seen (next x)
      x :: visit next wanted fuel (seen ++ fresh) (queue ++ fresh)

/-- Everything reached from the starts in any number of steps, where `bound`
is a bound on its number. -/
def explore (next : α → List α) (bound : Nat) (starts : List α) : List α :=
  visit next (fun _ => false) bound (distinct starts) (distinct starts)

inductive Reaches (next : α → List α) (starts : List α) : α → Prop
  | start {x : α} : x ∈ starts → Reaches next starts x
  | step {x y : α} : Reaches next starts x → y ∈ next x → Reaches next starts y

end FiniteAutomata
