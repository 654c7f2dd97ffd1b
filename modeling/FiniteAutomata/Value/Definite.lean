import FiniteAutomata.Value.Written

/-!
# Definite values

Values that can be members of a set and hold no undefined number. Main
statement: `Value.definite_iff`, so it can be decided whether a value is
definite.
-/

namespace FiniteAutomata

namespace Value

inductive Definite : Value → Prop where
  | null : Definite null
  | bool (b : Bool) : Definite (bool b)
  | int (n : Int) : Definite (int n)
  | float {x : Binary64} (hx : x.IsRepresentable) (hdef : x.isUndefined = false) : Definite (float x)
  | text (s : String) : Definite (text s)
  | bytes (bs : List UInt8) : Definite (bytes bs)
  | tuple {xs : List Value} (h : ∀ x ∈ xs, Definite x) : Definite (tuple xs)
  | frozenSet {xs : List Value} (h : ∀ x ∈ xs, Definite x) : Definite (frozenSet xs)

mutual

def isDefinite : Value → Bool
  | null => true
  | bool _ => true
  | int _ => true
  | float x => decide x.IsRepresentable && !x.isUndefined
  | text _ => true
  | bytes _ => true
  | tuple xs => areDefinite xs
  | frozenSet xs => areDefinite xs
  | _ => false

def areDefinite : List Value → Bool
  | [] => true
  | x :: xs => isDefinite x && areDefinite xs

end

mutual

theorem Definite.of_isDefinite : ∀ {v : Value}, v.isDefinite = true → Definite v
  | .null, _ => .null
  | .bool b, _ => .bool b
  | .int n, _ => .int n
  | .float _, h =>
    have ⟨hx, hdef⟩ := (Bool.and_eq_true _ _).mp h
    .float (of_decide_eq_true hx) (Bool.not_eq_true' _ ▸ hdef)
  | .text s, _ => .text s
  | .bytes bs, _ => .bytes bs
  | .tuple _, h => .tuple (Definite.of_areDefinite h)
  | .frozenSet _, h => .frozenSet (Definite.of_areDefinite h)

theorem Definite.of_areDefinite : ∀ {xs : List Value}, areDefinite xs = true → ∀ x ∈ xs, Definite x
  | [], _ => fun _ hx => nomatch hx
  | _ :: _, h =>
    have ⟨hhead, htail⟩ := (Bool.and_eq_true _ _).mp h
    List.forall_mem_cons.mpr ⟨Definite.of_isDefinite hhead, Definite.of_areDefinite htail⟩

end

theorem areDefinite_iff {xs : List Value} : areDefinite xs = true ↔ ∀ x ∈ xs, x.isDefinite = true := by
  induction xs with
  | nil => simp [areDefinite]
  | cons x xs ih => simp [areDefinite, ih]

theorem definite_iff {v : Value} : Definite v ↔ v.isDefinite = true := by
  constructor
  · intro h
    induction h with
    | float hx hdef => simp [isDefinite, hx, hdef]
    | tuple h ih => exact areDefinite_iff.mpr ih
    | frozenSet h ih => exact areDefinite_iff.mpr ih
    | _ => rfl
  · exact Definite.of_isDefinite

instance (v : Value) : Decidable (Definite v) := decidable_of_iff _ definite_iff.symm

end Value

end FiniteAutomata
