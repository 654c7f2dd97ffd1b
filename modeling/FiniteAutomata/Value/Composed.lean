import FiniteAutomata.Value.Basic

/-!
# Composed values

Values that are built from scalars without a fraction, texts and bytes by
tuples and, where they are admitted, by sets. Main statement:
`Value.composed_iff`, so it can be decided whether a value is composed.
-/

namespace FiniteAutomata

namespace Value

/-- The parameter tells whether sets are admitted. -/
inductive Composed (sets : Bool) : Value → Prop where
  | null : Composed sets null
  | bool (b : Bool) : Composed sets (bool b)
  | int (n : Int) : Composed sets (int n)
  | text (s : String) : Composed sets (text s)
  | bytes (bs : List UInt8) : Composed sets (bytes bs)
  | tuple {xs : List Value} (h : ∀ x ∈ xs, Composed sets x) : Composed sets (tuple xs)
  | frozenSet {xs : List Value} (hsets : sets = true) (h : ∀ x ∈ xs, Composed sets x) :
      Composed sets (frozenSet xs)

mutual

def isComposed (sets : Bool) : Value → Bool
  | null => true
  | bool _ => true
  | int _ => true
  | text _ => true
  | bytes _ => true
  | tuple xs => areComposed sets xs
  | frozenSet xs => sets && areComposed sets xs
  | _ => false

def areComposed (sets : Bool) : List Value → Bool
  | [] => true
  | x :: xs => isComposed sets x && areComposed sets xs

end

mutual

theorem Composed.of_isComposed {sets : Bool} : ∀ {v : Value}, v.isComposed sets = true → Composed sets v
  | .null, _ => .null
  | .bool b, _ => .bool b
  | .int n, _ => .int n
  | .text s, _ => .text s
  | .bytes bs, _ => .bytes bs
  | .tuple _, h => .tuple (Composed.of_areComposed h)
  | .frozenSet _, h =>
    have ⟨hsets, hall⟩ := (Bool.and_eq_true _ _).mp h
    .frozenSet hsets (Composed.of_areComposed hall)

theorem Composed.of_areComposed {sets : Bool} :
    ∀ {xs : List Value}, areComposed sets xs = true → ∀ x ∈ xs, Composed sets x
  | [], _ => fun _ hx => nomatch hx
  | _ :: _, h =>
    have ⟨hhead, htail⟩ := (Bool.and_eq_true _ _).mp h
    List.forall_mem_cons.mpr ⟨Composed.of_isComposed hhead, Composed.of_areComposed htail⟩

end

theorem areComposed_iff {sets : Bool} {xs : List Value} :
    areComposed sets xs = true ↔ ∀ x ∈ xs, x.isComposed sets = true := by
  induction xs with
  | nil => simp [areComposed]
  | cons x xs ih => simp [areComposed, ih]

theorem composed_iff {sets : Bool} {v : Value} : Composed sets v ↔ v.isComposed sets = true := by
  constructor
  · intro h
    induction h with
    | tuple h ih => exact areComposed_iff.mpr ih
    | frozenSet hsets h ih => exact (Bool.and_eq_true _ _).mpr ⟨hsets, areComposed_iff.mpr ih⟩
    | _ => rfl
  · exact Composed.of_isComposed

instance (sets : Bool) (v : Value) : Decidable (Composed sets v) := decidable_of_iff _ composed_iff.symm

end Value

end FiniteAutomata
