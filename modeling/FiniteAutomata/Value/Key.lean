import FiniteAutomata.Collection.Distinct
import FiniteAutomata.Value.Basic

/-!
# Equality of values

Two values are equal when they have the same key. A key forgets the type of a
number and keeps its exact value, and it holds the members of a set sorted and
without repetition. Main statement: `Value.beq_iff_key`, so equality of values
is an equivalence.
-/

namespace FiniteAutomata

/-- What equality sees of a value without parts. -/
inductive Atom where
  | null
  | number (q : Rat)
  | infinity (negative : Bool)
  | undefined (tag : Nat)
  | text (s : String)
  | bytes (bs : List UInt8)
  deriving DecidableEq

inductive Shape where
  | tuple
  | list
  | set
  | record
  deriving DecidableEq

inductive Key where
  | leaf (a : Atom)
  | node (s : Shape) (parts : List Key)

/-! ## The order of keys -/

def Atom.rank : Atom → Nat
  | null => 0
  | number _ => 1
  | infinity _ => 2
  | undefined _ => 3
  | text _ => 4
  | bytes _ => 5

def orderOf {α : Type} [DecidableEq α] [LT α] [DecidableLT α] (a b : α) : Ordering :=
  if a = b then .eq else if a < b then .lt else .gt

def Atom.order : Atom → Atom → Ordering
  | number p, number q => orderOf p q
  | infinity a, infinity b => orderOf a.toNat b.toNat
  | undefined s, undefined t => orderOf s t
  | text s, text t => orderOf s t
  | bytes a, bytes b => orderOf a b
  | a, b => orderOf a.rank b.rank

def Shape.rank : Shape → Nat
  | tuple => 0
  | list => 1
  | set => 2
  | record => 3

mutual

def Key.order : Key → Key → Ordering
  | .leaf a, .leaf b => a.order b
  | .leaf _, .node _ _ => .lt
  | .node _ _, .leaf _ => .gt
  | .node s xs, .node t ys => (orderOf s.rank t.rank).then (Key.orderAll xs ys)

def Key.orderAll : List Key → List Key → Ordering
  | [], [] => .eq
  | [], _ :: _ => .lt
  | _ :: _, [] => .gt
  | x :: xs, y :: ys => (Key.order x y).then (Key.orderAll xs ys)

end

theorem orderOf_eq_iff {α : Type} [DecidableEq α] [LT α] [DecidableLT α] {a b : α} :
    orderOf a b = .eq ↔ a = b := by
  unfold orderOf
  split <;> rename_i h
  · simp [h]
  · split <;> simp [h]

theorem Atom.order_eq_iff {a b : Atom} : a.order b = .eq ↔ a = b := by
  cases a <;> cases b <;> simp [Atom.order, orderOf_eq_iff, Atom.rank]
  rename_i x y
  cases x <;> cases y <;> simp

theorem Shape.rank_inj {s t : Shape} : s.rank = t.rank ↔ s = t := by
  cases s <;> cases t <;> simp [Shape.rank]

mutual

theorem Key.order_eq_iff : ∀ {a b : Key}, a.order b = .eq ↔ a = b
  | .leaf a, .leaf b => by simp [Key.order, Atom.order_eq_iff]
  | .leaf _, .node _ _ => by simp [Key.order]
  | .node _ _, .leaf _ => by simp [Key.order]
  | .node s xs, .node t ys => by
    simp [Key.order, Ordering.then_eq_eq, orderOf_eq_iff, Shape.rank_inj, @Key.orderAll_eq_iff xs ys]

theorem Key.orderAll_eq_iff : ∀ {xs ys : List Key}, Key.orderAll xs ys = .eq ↔ xs = ys
  | [], [] => by simp [Key.orderAll]
  | [], _ :: _ => by simp [Key.orderAll]
  | _ :: _, [] => by simp [Key.orderAll]
  | x :: xs, y :: ys => by
    simp [Key.orderAll, Ordering.then_eq_eq, @Key.order_eq_iff x y, @Key.orderAll_eq_iff xs ys]

end

instance : DecidableEq Key := fun a b => decidable_of_iff (a.order b = .eq) Key.order_eq_iff

/-! ## The key of a value -/

def Key.insert (k : Key) : List Key → List Key
  | [] => [k]
  | x :: xs =>
    match k.order x with
    | .lt => k :: x :: xs
    | .eq => x :: xs
    | .gt => x :: Key.insert k xs

def Key.ofMembers (s : Shape) (keys : List Key) : Key := .node s (keys.foldr Key.insert [])

def Binary64.key : Binary64 → Key
  | .negativeZero => .leaf (.number 0)
  | .finite q => .leaf (.number q)
  | .infinite negative => .leaf (.infinity negative)
  | .undefined tag => .leaf (.undefined tag)

namespace Value

mutual

def key : Value → Key
  | null => .leaf .null
  | bool b => .leaf (.number (if b then 1 else 0))
  | int n => .leaf (.number n)
  | float x => x.key
  | text s => .leaf (.text s)
  | bytes bs => .leaf (.bytes bs)
  | byteArray bs => .leaf (.bytes bs)
  | tuple xs => .node .tuple (keys xs)
  | list xs => .node .list (keys xs)
  | frozenSet xs => .ofMembers .set (keys xs)
  | set xs => .ofMembers .set (keys xs)
  | record items => .ofMembers .record (itemKeys items)

def keys : List Value → List Key
  | [] => []
  | x :: xs => key x :: keys xs

def itemKeys : List (Value × Value) → List Key
  | [] => []
  | (k, v) :: items => .node .tuple [key k, key v] :: itemKeys items

end

/-! ## Equality -/

mutual

def same : Value → Value → Bool
  -- texts, integers and sequences need no keys
  | text s, text t => decide (s = t)
  | int m, int n => decide (m = n)
  | tuple xs, tuple ys => sameAll xs ys
  | list xs, list ys => sameAll xs ys
  | a, b => decide (a.key = b.key)

def sameAll : List Value → List Value → Bool
  | [], [] => true
  | x :: xs, y :: ys => same x y && sameAll xs ys
  | _, _ => false

end

mutual

theorem same_eq_decide : ∀ a b : Value, same a b = decide (a.key = b.key)
  | text s, b => by cases b <;> simp [same, key]
  | int m, b => by cases b <;> simp [same, key]
  | tuple xs, b => by cases b <;> simp [same, key, sameAll_eq_decide xs]
  | list xs, b => by cases b <;> simp [same, key, sameAll_eq_decide xs]
  | null, b => by cases b <;> simp [same]
  | bool _, b => by cases b <;> simp [same]
  | float _, b => by cases b <;> simp [same]
  | bytes _, b => by cases b <;> simp [same]
  | byteArray _, b => by cases b <;> simp [same]
  | frozenSet _, b => by cases b <;> simp [same]
  | set _, b => by cases b <;> simp [same]
  | record _, b => by cases b <;> simp [same]

theorem sameAll_eq_decide : ∀ xs ys : List Value, sameAll xs ys = decide (keys xs = keys ys)
  | [], [] => by simp [sameAll, keys]
  | [], _ :: _ => by simp [sameAll, keys]
  | _ :: _, [] => by simp [sameAll, keys]
  | x :: xs, y :: ys => by
    simp [sameAll, keys, same_eq_decide x y, sameAll_eq_decide xs ys]

end

instance : BEq Value := ⟨same⟩

theorem beq_iff_key {a b : Value} : (a == b) = true ↔ a.key = b.key := by
  show same a b = true ↔ _
  rw [same_eq_decide, decide_eq_true_iff]

instance : EquivBEq Value where
  rfl := beq_iff_key.mpr rfl
  symm h := beq_iff_key.mpr (beq_iff_key.mp h).symm
  trans h₁ h₂ := beq_iff_key.mpr ((beq_iff_key.mp h₁).trans (beq_iff_key.mp h₂))

theorem beq_text_iff {v : Value} {s : String} : (v == .text s) = true ↔ v = .text s := by
  constructor
  · intro h
    rw [beq_iff_key] at h
    cases v with
    | text t => simpa [key] using h
    | float x => cases x <;> simp [key, Binary64.key] at h
    | _ => simp [key, Key.ofMembers] at h
  · intro h
    rw [h]
    exact BEq.rfl

/-! ## Sets and records -/

/-- A repeated key keeps its place and takes the last entry. -/
def insertItem (items : List (Value × Value)) (item : Value × Value) : List (Value × Value) :=
  if items.any (·.1 == item.1) then
    items.map fun old => if old.1 == item.1 then (old.1, item.2) else old
  else items ++ [item]

def ofItems (items : List (Value × Value)) : Value := record (items.foldl insertItem [])

def ofMembers (xs : List Value) : Value := set (distinct xs)

def ofFrozenMembers (xs : List Value) : Value := frozenSet (distinct xs)

end Value

end FiniteAutomata
