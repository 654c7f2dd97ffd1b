import FiniteAutomata.Automaton.Validation

/-!
# Values within limits

A limit is met on the way through a value only if the value nests too deep or
holds a whole number that is too long (`Value.exceeds_of_excess?`), and a
value that does neither fits (`Value.excess?_eq_none_iff`). Whatever can be
encoded can be written (`Value.excess?_writing_of_encoding`).
-/

namespace FiniteAutomata

namespace Value

/-! ## How deep a value nests and what it counts -/

mutual

/-- The calls that nest on the way to the innermost part. -/
def depth (p : Passage) : Value → Nat
  | tuple xs => partsDepth p p.tuple xs
  | list xs => partsDepth p p.list xs
  | set xs => partsDepth p p.set xs
  | frozenSet xs => partsDepth p p.set xs
  | record items => itemsDepth p items
  | _ => 0

def partsDepth (p : Passage) (cost : Nat) : List Value → Nat
  | [] => 0
  | x :: xs => max (cost + depth p x) (partsDepth p cost xs)

def itemsDepth (p : Passage) : List (Value × Value) → Nat
  | [] => 0
  | (k, v) :: items => max (p.record + max (depth p k) (depth p v)) (itemsDepth p items)

end

mutual

def integers : Value → List Int
  | int n => [n]
  | tuple xs => partsIntegers xs
  | list xs => partsIntegers xs
  | set xs => partsIntegers xs
  | frozenSet xs => partsIntegers xs
  | record items => itemsIntegers items
  | _ => []

def partsIntegers : List Value → List Int
  | [] => []
  | x :: xs => integers x ++ partsIntegers xs

def itemsIntegers : List (Value × Value) → List Int
  | [] => []
  | (k, v) :: items => integers k ++ integers v ++ itemsIntegers items

end

variable {p : Passage} {digits cost : Nat}

theorem entered_eq_some {calls : Nat} {inside : Nat → Option Excess} {e : Excess} :
    entered cost calls inside = some e ↔
      (calls < cost ∧ e = .calls) ∨ (cost ≤ calls ∧ inside (calls - cost) = some e) := by
  unfold entered
  by_cases h : calls < cost
  · simp [h, Nat.not_le.mpr h, eq_comm]
  · simp [h, Nat.not_lt.mp h]

theorem entered_eq_none {calls : Nat} {inside : Nat → Option Excess} :
    entered cost calls inside = none ↔ cost ≤ calls ∧ inside (calls - cost) = none := by
  unfold entered
  by_cases h : calls < cost
  · simp [h, Nat.not_le.mpr h]
  · simp [h, Nat.not_lt.mp h]

/-! ## What exceeds a limit -/

/-- What a value with these integers and this depth exceeds. -/
def Exceeds (p : Passage) (digits calls : Nat) (ns : List Int) (depth : Nat) : Excess → Prop
  | .digits => p.writes = true ∧ ∃ n ∈ ns, Nat.pow 10 digits ≤ n.natAbs
  | .calls => calls < depth

theorem Exceeds.mono {calls depth depth' : Nat} {ns ns' : List Int} {e : Excess} (h : Exceeds p digits calls ns depth e)
    (hns : ∀ n ∈ ns, n ∈ ns') (hdepth : depth ≤ depth') : Exceeds p digits calls ns' depth' e := by
  cases e with
  | digits =>
    obtain ⟨hwrites, n, hn, hlong⟩ := h
    exact ⟨hwrites, n, hns n hn, hlong⟩
  | calls => exact Nat.lt_of_lt_of_le h hdepth

theorem Exceeds.of_entered {calls depth : Nat} {ns : List Int} {inside : Nat → Option Excess} {e : Excess}
    (h : entered cost calls inside = some e)
    (hinside : ∀ left, inside left = some e → Exceeds p digits left ns depth e) :
    Exceeds p digits calls ns (cost + depth) e := by
  rcases entered_eq_some.mp h with ⟨hlt, rfl⟩ | ⟨hle, h⟩
  · exact Nat.lt_of_lt_of_le hlt (Nat.le_add_right _ _)
  · have hexceeds := hinside _ h
    cases e with
    | digits => exact hexceeds
    | calls =>
      -- what is left inside has the calls on the way in taken off
      have hlt : calls - cost < depth := hexceeds
      show calls < cost + depth
      omega

mutual

theorem exceeds_of_excess? {e : Excess} : ∀ {v : Value} {calls : Nat}, v.excess? p digits calls = some e →
    Exceeds p digits calls v.integers (v.depth p) e
  | int n, calls, h => by
    unfold excess? at h
    split at h
    · rename_i hlong
      cases h
      obtain ⟨hwrites, hlong⟩ := (Bool.and_eq_true _ _).mp hlong
      exact ⟨hwrites, n, List.mem_singleton.mpr rfl, of_decide_eq_true hlong⟩
    · cases h
  | tuple _, _, h => exceeds_of_partsExcess? (by simpa only [excess?] using h)
  | list _, _, h => exceeds_of_partsExcess? (by simpa only [excess?] using h)
  | set _, _, h => exceeds_of_partsExcess? (by simpa only [excess?] using h)
  | frozenSet _, _, h => exceeds_of_partsExcess? (by simpa only [excess?] using h)
  | record _, _, h => exceeds_of_itemsExcess? (by simpa only [excess?] using h)

theorem exceeds_of_partsExcess? {e : Excess} : ∀ {xs : List Value} {cost calls : Nat},
    partsExcess? p digits cost calls xs = some e →
      Exceeds p digits calls (partsIntegers xs) (partsDepth p cost xs) e
  | x :: xs, cost, calls, h => by
    unfold partsExcess? at h
    rcases Option.or_eq_some_iff.mp h with h | ⟨-, h⟩
    · exact (Exceeds.of_entered h fun _ h => exceeds_of_excess? h).mono
        (fun n hn => List.mem_append_left _ hn) (Nat.le_max_left _ _)
    · exact (exceeds_of_partsExcess? h).mono (fun n hn => List.mem_append_right _ hn) (Nat.le_max_right _ _)

theorem exceeds_of_itemsExcess? {e : Excess} : ∀ {items : List (Value × Value)} {calls : Nat},
    itemsExcess? p digits calls items = some e → Exceeds p digits calls (itemsIntegers items) (itemsDepth p items) e
  | (k, v) :: items, calls, h => by
    unfold itemsExcess? at h
    rcases Option.or_eq_some_iff.mp h with h | ⟨-, h⟩
    · have hitem : Exceeds p digits calls (k.integers ++ v.integers) (p.record + max (k.depth p) (v.depth p)) e := by
        refine .of_entered h fun left h => ?_
        rcases Option.or_eq_some_iff.mp h with h | ⟨-, h⟩
        · exact (exceeds_of_excess? h).mono (fun n hn => List.mem_append_left _ hn) (Nat.le_max_left _ _)
        · exact (exceeds_of_excess? h).mono (fun n hn => List.mem_append_right _ hn) (Nat.le_max_right _ _)
      exact hitem.mono (fun n hn => List.mem_append_left _ hn) (Nat.le_max_left _ _)
    · exact (exceeds_of_itemsExcess? h).mono (fun n hn => List.mem_append_right _ hn) (Nat.le_max_right _ _)

end

/-! ## What fits -/

/-- A value with these integers and this depth exceeds nothing. -/
structure Fits (p : Passage) (digits calls : Nat) (ns : List Int) (depth : Nat) : Prop where
  integers : p.writes = true → ∀ n ∈ ns, n.natAbs < Nat.pow 10 digits
  depth : depth ≤ calls

theorem fits_append {calls depth depth' : Nat} {ns ns' : List Int} (h : Fits p digits calls ns depth)
    (h' : Fits p digits calls ns' depth') : Fits p digits calls (ns ++ ns') (max depth depth') where
  integers hwrites := List.forall_mem_append.mpr ⟨h.integers hwrites, h'.integers hwrites⟩
  depth := Nat.max_le.mpr ⟨h.depth, h'.depth⟩

theorem Fits.of_entered {calls depth : Nat} {ns : List Int} {inside : Nat → Option Excess}
    (h : entered cost calls inside = none) (hinside : ∀ left, inside left = none → Fits p digits left ns depth) :
    Fits p digits calls ns (cost + depth) := by
  obtain ⟨hle, h⟩ := entered_eq_none.mp h
  have hfits := hinside _ h
  have hdepth := hfits.depth
  exact ⟨hfits.integers, by omega⟩

theorem fits_nil (p : Passage) (digits calls : Nat) : Fits p digits calls [] 0 :=
  ⟨fun _ => List.forall_mem_nil _, Nat.zero_le _⟩

mutual

theorem fits_of_excess? : ∀ {v : Value} {calls : Nat}, v.excess? p digits calls = none →
    Fits p digits calls v.integers (v.depth p)
  | int n, calls, h => by
    refine ⟨fun hwrites => List.forall_mem_singleton.mpr ?_, Nat.zero_le _⟩
    unfold excess? at h
    rw [hwrites] at h
    simpa using h
  | tuple _, _, h => fits_of_partsExcess? (by simpa only [excess?] using h)
  | list _, _, h => fits_of_partsExcess? (by simpa only [excess?] using h)
  | set _, _, h => fits_of_partsExcess? (by simpa only [excess?] using h)
  | frozenSet _, _, h => fits_of_partsExcess? (by simpa only [excess?] using h)
  | record _, _, h => fits_of_itemsExcess? (by simpa only [excess?] using h)
  | null, _, _ => fits_nil _ _ _
  | bool _, _, _ => fits_nil _ _ _
  | float _, _, _ => fits_nil _ _ _
  | text _, _, _ => fits_nil _ _ _
  | bytes _, _, _ => fits_nil _ _ _
  | byteArray _, _, _ => fits_nil _ _ _

theorem fits_of_partsExcess? : ∀ {xs : List Value} {cost calls : Nat},
    partsExcess? p digits cost calls xs = none → Fits p digits calls (partsIntegers xs) (partsDepth p cost xs)
  | [], _, _, _ => fits_nil _ _ _
  | x :: xs, cost, calls, h => by
    unfold partsExcess? at h
    obtain ⟨h, hrest⟩ := Option.or_eq_none_iff.mp h
    exact fits_append (.of_entered h fun _ h => fits_of_excess? h) (fits_of_partsExcess? hrest)

theorem fits_of_itemsExcess? : ∀ {items : List (Value × Value)} {calls : Nat},
    itemsExcess? p digits calls items = none → Fits p digits calls (itemsIntegers items) (itemsDepth p items)
  | [], _, _ => fits_nil _ _ _
  | (k, v) :: items, calls, h => by
    unfold itemsExcess? at h
    obtain ⟨h, hrest⟩ := Option.or_eq_none_iff.mp h
    refine fits_append (.of_entered h fun left h => ?_) (fits_of_itemsExcess? hrest)
    obtain ⟨hk, hv⟩ := Option.or_eq_none_iff.mp h
    exact fits_append (fits_of_excess? hk) (fits_of_excess? hv)

end

theorem Exceeds.not_fits {calls depth : Nat} {ns : List Int} {e : Excess} (h : Exceeds p digits calls ns depth e) :
    ¬ Fits p digits calls ns depth := by
  intro hfits
  cases e with
  | digits =>
    obtain ⟨hwrites, n, hn, hlong⟩ := h
    exact absurd (hfits.integers hwrites n hn) (Nat.not_lt.mpr hlong)
  | calls => exact absurd hfits.depth (Nat.not_le.mpr h)

theorem excess?_eq_none_iff {v : Value} {calls : Nat} :
    v.excess? p digits calls = none ↔ Fits p digits calls v.integers (v.depth p) := by
  refine ⟨fits_of_excess?, fun h => ?_⟩
  cases he : v.excess? p digits calls with
  | none => rfl
  | some e => exact absurd h (exceeds_of_excess? he).not_fits

/-! ## What can be encoded can be written -/

mutual

theorem depth_writing_le : ∀ v : Value, v.depth .writing ≤ v.depth .encoding
  | tuple xs => partsDepth_writing_le (by decide) xs
  | list xs => partsDepth_writing_le (by decide) xs
  | set xs => partsDepth_writing_le (by decide) xs
  | frozenSet xs => partsDepth_writing_le (by decide) xs
  | record items => itemsDepth_writing_le items
  | null => Nat.le_refl _
  | bool _ => Nat.le_refl _
  | int _ => Nat.le_refl _
  | float _ => Nat.le_refl _
  | text _ => Nat.le_refl _
  | bytes _ => Nat.le_refl _
  | byteArray _ => Nat.le_refl _

theorem partsDepth_writing_le {cost cost' : Nat} (h : cost ≤ cost') :
    ∀ xs : List Value, partsDepth .writing cost xs ≤ partsDepth .encoding cost' xs
  | [] => Nat.le_refl _
  | x :: xs => by
    have hx := depth_writing_le x
    have hxs := partsDepth_writing_le h xs
    unfold partsDepth
    omega

theorem itemsDepth_writing_le : ∀ items : List (Value × Value), itemsDepth .writing items ≤ itemsDepth .encoding items
  | [] => Nat.le_refl _
  | (k, v) :: items => by
    have hk := depth_writing_le k
    have hv := depth_writing_le v
    have hitems := itemsDepth_writing_le items
    have hcost : Passage.writing.record ≤ Passage.encoding.record := by decide
    unfold itemsDepth
    omega

end

theorem excess?_writing_of_encoding {v : Value} {calls : Nat} (h : v.excess? .encoding digits calls = none) :
    v.excess? .writing digits calls = none := by
  rw [excess?_eq_none_iff] at h ⊢
  exact ⟨fun _ => h.integers rfl, Nat.le_trans (depth_writing_le v) h.depth⟩

end Value

/-! ## Keys -/

namespace Limits

/-- No limit is met on the way through the value. -/
def Admits (limits : Limits) (p : Passage) (v : Value) : Prop :=
  Value.Fits p limits.digits limits.calls v.integers (v.depth p)

variable {limits : Limits} {p : Passage} {v : Value}

theorem excess?_eq_none_iff : limits.excess? p v = none ↔ limits.Admits p v := Value.excess?_eq_none_iff

theorem Admits.writing (h : limits.Admits .encoding v) : limits.Admits .writing v :=
  excess?_eq_none_iff.mp (Value.excess?_writing_of_encoding (excess?_eq_none_iff.mpr h))

theorem orderKey_eq (h : limits.Admits .writing v) : limits.orderKey v = v.orderKey := by
  unfold orderKey spelling
  rw [excess?_eq_none_iff.mpr h]; rfl

theorem canonicalOrder_eq {xs : List Value} (h : ∀ x ∈ xs, limits.Admits .writing x) :
    limits.canonicalOrder xs = Value.canonicalOrder xs := by
  have hpairs : (xs.map fun x => (limits.orderKey x, x)) = xs.map fun x => (x.orderKey, x) :=
    List.map_congr_left fun x hx => by rw [orderKey_eq (h x hx)]
  unfold canonicalOrder Value.canonicalOrder sortOn
  rw [hpairs]

end Limits

end FiniteAutomata
