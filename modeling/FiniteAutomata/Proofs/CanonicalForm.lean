import FiniteAutomata.Proofs.CanonicalOrder
import FiniteAutomata.Proofs.Limits

/-!
# The canonical order is a canonical form

Labels that are built from scalars without a fraction, texts and bytes by
tuples stand in a linear order, by type, value and spelling, as long as the
runtime can write them. Of those that it cannot write, tuples that meet the
same limit have one key and stay in the order in which they are listed. So two
lists are sorted into one exactly when they list the same labels equally
often, unless two different tuples meet the same limit
(`Value.canonicalOrder_is_canonical_form`).
-/

namespace FiniteAutomata

open Value (Composed lowerBy KeptApart)

/-! ## Keys of values that are not written -/

namespace Limits

variable {limits : Limits} {v w : Value} {xs ys : List Value} {e : Excess}

/-- Two tuples that meet the same limit when they are written. -/
inductive Clash (limits : Limits) : Value → Value → Prop where
  | tuples {ts us : List Value} {e : Excess} (h : limits.excess? .writing (.tuple ts) = some e)
      (h' : limits.excess? .writing (.tuple us) = some e) : Clash limits (.tuple ts) (.tuple us)

/-- No two different tuples of the list meet the same limit. -/
def TellsApart (limits : Limits) (xs : List Value) : Prop := ∀ v ∈ xs, ∀ w ∈ xs, limits.Clash v w → v = w

theorem spelling_of_excess (h : limits.excess? .writing v = some e) :
    limits.spelling v = ("<repr_error:" ++ e.errorName ++ ">").toList := by
  unfold spelling
  rw [h]

theorem spelling_of_none (h : limits.excess? .writing v = none) : limits.spelling v = v.spelling := by
  unfold spelling
  rw [h]

theorem number_orderKey (v : Value) : (limits.orderKey v).number = v.number := rfl

theorem errorName_inj {e e' : Excess} (h : limits.spelling v = limits.spelling w)
    (hv : limits.excess? .writing v = some e) (hw : limits.excess? .writing w = some e') : e = e' := by
  rw [spelling_of_excess hv, spelling_of_excess hw] at h
  revert h
  cases e <;> cases e' <;> decide

theorem spelling_tuple_ne {ts us : List Value} (hv : limits.excess? .writing (.tuple ts) = some e)
    (hw : limits.excess? .writing (.tuple us) = none) : limits.spelling (.tuple ts) ≠ limits.spelling (.tuple us) := by
  have hbracket : (Value.tuple us).spelling.head? = some '(' := by
    rw [Value.spelling_tuple]
    cases us with
    | nil => rfl
    | cons u us => rw [List.map_cons, Value.tupleSpelling_cons]; rfl
  intro h
  rw [spelling_of_excess hv, spelling_of_none hw] at h
  rw [← h] at hbracket
  cases e with
  | digits => exact absurd hbracket (by decide)
  | calls => exact absurd hbracket (by decide)

theorem same_orderKey_eq_iff : (limits.orderKey v).same (limits.orderKey w) = true ↔
    v.typeName = w.typeName ∧ v.number.same w.number = true ∧ limits.spelling v = limits.spelling w := by
  unfold OrderKey.same orderKey
  rw [Bool.and_eq_true, Bool.and_eq_true, beq_iff_eq, beq_iff_eq, and_assoc]

theorem Clash.same (h : limits.Clash v w) : (limits.orderKey v).same (limits.orderKey w) = true := by
  obtain ⟨hv, hw⟩ := h
  have hnumber : (Number.int 0).same (.int 0) = true := by
    rw [Number.same_int]; rfl
  exact same_orderKey_eq_iff.mpr ⟨rfl, hnumber, (spelling_of_excess hv).trans (spelling_of_excess hw).symm⟩

theorem Clash.symm (h : limits.Clash v w) : limits.Clash w v := by
  obtain ⟨hv, hw⟩ := h
  exact .tuples hw hv

theorem exists_int_of_typeName (h : v.typeName = "int") : ∃ n, v = .int n := by
  cases v with
  | int n => exact ⟨n, rfl⟩
  | _ => exact absurd h (by simp [Value.typeName])

theorem exists_tuple_of_typeName (h : v.typeName = "tuple") : ∃ ts, v = .tuple ts := by
  cases v with
  | tuple ts => exact ⟨ts, rfl⟩
  | _ => exact absurd h (by simp [Value.typeName])

/-- Only whole numbers and values with parts meet limits. -/
theorem excess?_eq_none_of_typeName (hv : Composed false v) (hint : v.typeName ≠ "int") (htuple : v.typeName ≠ "tuple") :
    limits.excess? .writing v = none := by
  cases hv with
  | int n => exact absurd rfl hint
  | tuple h => exact absurd rfl htuple
  | frozenSet h => cases h
  | _ => rfl

theorem eq_or_clash_of_tuples {ts us : List Value} (hv : Composed false (.tuple ts)) (hw : Composed false (.tuple us))
    (h : limits.spelling (.tuple ts) = limits.spelling (.tuple us)) :
    Value.tuple ts = .tuple us ∨ limits.Clash (.tuple ts) (.tuple us) := by
  cases hte : limits.excess? .writing (.tuple ts) with
  | none =>
    cases hue : limits.excess? .writing (.tuple us) with
    | none =>
      rw [spelling_of_none hte, spelling_of_none hue] at h
      exact .inl (Value.spelling_inj hv hw h)
    | some e => exact absurd h.symm (spelling_tuple_ne hue hte)
  | some e =>
    cases hue : limits.excess? .writing (.tuple us) with
    | none => exact absurd h (spelling_tuple_ne hte hue)
    | some e' =>
      rw [errorName_inj h hte hue] at hte
      exact .inr (.tuples hte hue)

/-- Integers are told apart by their values and tuples by what is written of
them; all else is always written. -/
theorem same_orderKey_iff (hv : Composed false v) (hw : Composed false w) :
    (limits.orderKey v).same (limits.orderKey w) = true ↔ v = w ∨ limits.Clash v w := by
  constructor
  · intro h
    obtain ⟨htype, hnumber, hspelling⟩ := same_orderKey_eq_iff.mp h
    by_cases hint : v.typeName = "int"
    · obtain ⟨m, rfl⟩ := exists_int_of_typeName hint
      obtain ⟨n, rfl⟩ := exists_int_of_typeName (htype.symm.trans hint)
      have hsame : decide (m = n) = true := (Number.same_int m n).symm.trans hnumber
      exact .inl (congrArg Value.int (of_decide_eq_true hsame))
    · by_cases htuple : v.typeName = "tuple"
      · obtain ⟨ts, rfl⟩ := exists_tuple_of_typeName htuple
        obtain ⟨us, rfl⟩ := exists_tuple_of_typeName (htype.symm.trans htuple)
        exact eq_or_clash_of_tuples hv hw hspelling
      · have hve : limits.excess? .writing v = none := excess?_eq_none_of_typeName hv hint htuple
        rw [htype] at hint htuple
        rw [spelling_of_none hve, spelling_of_none (excess?_eq_none_of_typeName hw hint htuple)] at hspelling
        exact .inl (Value.spelling_inj hv hw hspelling)
  · rintro (rfl | h)
    · exact (Value.same_key_iff_place_eq number_orderKey hv.isUndefined_eq hv.isUndefined_eq).mpr rfl
    · exact h.same

/-! ## Sorted lists -/

theorem keptApart_of_tellsApart (hxs : ∀ x ∈ xs, Composed false x) (h : limits.TellsApart xs) :
    KeptApart limits.orderKey (· ∈ xs) := by
  intro v w hv hw hsame
  rcases (same_orderKey_iff (hxs v hv) (hxs w hw)).mp hsame with heq | hclash
  · exact heq
  · exact h v hv w hw hclash

theorem canonicalOrder_eq_iff_perm (hxs : ∀ x ∈ xs, Composed false x) (h : limits.TellsApart xs) :
    limits.canonicalOrder ys = limits.canonicalOrder xs ↔ ys.Perm xs := by
  have hdefined : ∀ v, v ∈ xs → v.isUndefined = false := fun v hv => (hxs v hv).isUndefined_eq
  constructor
  · intro heq
    have hx : (limits.canonicalOrder xs).Perm xs := perm_sortOn _ _ xs
    have hy : (limits.canonicalOrder ys).Perm ys := perm_sortOn _ _ ys
    rw [heq] at hy
    exact hy.symm.trans hx
  · intro hperm
    exact (keptApart_of_tellsApart hxs h).sortsAlike number_orderKey hdefined xs ys (fun _ hx => hx) hperm.symm

theorem tellsApart_of_admits (h : ∀ x ∈ xs, limits.Admits .writing x) : limits.TellsApart xs := by
  intro v hv w _ hclash
  obtain ⟨hexcess, -⟩ := hclash
  rw [excess?_eq_none_iff.mpr (h _ hv)] at hexcess
  cases hexcess

/-- Integers are compared by their values, whether they are written or not. -/
theorem lowerBy_of_int_lt {m n : Int} (h : m < n) : lowerBy limits.orderKey (.int m) (.int n) = true := by
  have hsame : (Number.int m).same (.int n) = false := by
    rw [Number.same_int, decide_eq_false (Int.ne_of_lt h)]
  have hlt : (Number.int m).lt (.int n) = true := by
    rw [Number.lt_int, decide_eq_true h]
  unfold lowerBy OrderKey.lt orderKey Value.number Value.typeName
  simp [hsame, hlt]

theorem lowerBy_bool_int (b : Bool) (n : Int) : lowerBy limits.orderKey (.bool b) (.int n) = true := by
  have hname : ("bool" : String) < "int" := by decide
  unfold lowerBy OrderKey.lt orderKey Value.typeName
  simp [hname]

theorem pairwise_ints (h : Sorted (lowerBy limits.orderKey) xs) :
    xs.Pairwise fun v w => ∀ m n, v = .int m → w = .int n → m ≤ n := by
  refine h.imp ?_
  rintro v w hwv m n rfl rfl
  refine Int.not_lt.mp fun hlt => ?_
  rw [lowerBy_of_int_lt hlt] at hwv
  cases hwv

theorem pairwise_bools (h : Sorted (lowerBy limits.orderKey) xs) :
    xs.Pairwise fun v w => ∀ n b, v = .int n → w ≠ .bool b := by
  refine h.imp ?_
  rintro v w hwv n b rfl rfl
  rw [lowerBy_bool_int] at hwv
  cases hwv

theorem canonicalOrder_int_bool (n : Int) (b : Bool) : limits.canonicalOrder [.int n, .bool b] = [.bool b, .int n] := by
  have hlt : OrderKey.lt (limits.orderKey (.bool b)) (limits.orderKey (.int n)) = true := lowerBy_bool_int b n
  unfold canonicalOrder sortOn sortBy
  simp [firstRun, takeRun, hlt]

theorem excess?_of_long {n : Int} (hcalls : 1 ≤ limits.calls) (hlong : Nat.pow 10 limits.digits ≤ n.natAbs) :
    limits.excess? .writing (.tuple [.int n]) = some .digits := by
  have hint : Value.excess? .writing limits.digits (limits.calls - 1) (.int n) = some .digits := by
    unfold Value.excess?
    rw [decide_eq_true hlong]; rfl
  unfold excess? Value.excess? Value.partsExcess?
  have hinside : Value.entered Passage.writing.tuple limits.calls
      (fun left => Value.excess? .writing limits.digits left (.int n)) = some .digits :=
    Value.entered_eq_some.mpr (.inr ⟨hcalls, hint⟩)
  rw [hinside]; rfl

end Limits

namespace Value

/-- What the canonical order gives for a list: truth values stand in front of
integers, whatever they count as. -/
structure IsCanonicalOrder (limits : Limits) (xs zs : List Value) : Prop where
  perm : zs.Perm xs
  sorted : Sorted (lowerBy limits.orderKey) zs
  integers : zs.Pairwise fun v w => ∀ m n, v = int m → w = int n → m ≤ n
  truths : zs.Pairwise fun v w => ∀ n b, v = int n → w ≠ bool b

/-- A list of composed labels is sorted by their keys, with its integers in
their order. Two labels have the same key exactly when they are equal or are
two tuples that meet the same limit when they are written, and then they stay
as they are listed. So lists without two such tuples are sorted into one list
exactly when they are permutations of each other, and that list is their one
sorted permutation. Labels that are all written are of this kind, and their
order by type, value and spelling is a linear one. Of any kind of labels, to
be sorted alike and to have keys apart is one property. -/
theorem canonicalOrder_is_canonical_form (limits : Limits) :
    (∀ xs : List Value, (∀ x ∈ xs, Composed false x) →
      IsCanonicalOrder limits xs (limits.canonicalOrder xs) ∧
      (limits.TellsApart xs → ∀ ys,
        (limits.canonicalOrder ys = limits.canonicalOrder xs ↔ ys.Perm xs) ∧
        (ys = limits.canonicalOrder xs ↔ ys.Perm xs ∧ Sorted (lowerBy limits.orderKey) ys))) ∧
    (∀ v w, Composed false v → Composed false w →
      ((limits.orderKey v).same (limits.orderKey w) = true ↔ v = w ∨ limits.Clash v w) ∧
      (limits.Clash v w → limits.canonicalOrder [v, w] = [v, w] ∧ limits.canonicalOrder [w, v] = [w, v]) ∧
      (limits.Admits .writing v → limits.Admits .writing w → (lowerBy limits.orderKey v w = true ↔ Before v w))) ∧
    (∀ xs : List Value, (∀ x ∈ xs, limits.Admits .writing x) →
      limits.TellsApart xs ∧ limits.canonicalOrder xs = canonicalOrder xs) ∧
    IsStrictTotalOrder {v // Composed false v ∧ limits.Admits .writing v}
      (fun v w => lowerBy limits.orderKey v w = true) ∧
    ∀ P : Value → Prop, (∀ v, P v → v.isUndefined = false) →
      (SortsAlike limits.orderKey P ↔ KeptApart limits.orderKey P) := by
  refine ⟨fun xs hxs => ?_, fun v w hv hw => ?_, fun xs hxs => ?_, ?_, ?_⟩
  · have hdefined : ∀ v ∈ xs, v.isUndefined = false := fun v hv => (hxs v hv).isUndefined_eq
    have hsorted : Sorted (lowerBy limits.orderKey) (limits.canonicalOrder xs) :=
      sorted_sortOn_of_defined Limits.number_orderKey hdefined
    refine ⟨⟨perm_sortOn _ _ xs, hsorted, Limits.pairwise_ints hsorted, Limits.pairwise_bools hsorted⟩, fun h ys => ?_⟩
    exact ⟨Limits.canonicalOrder_eq_iff_perm hxs h,
      (Limits.keptApart_of_tellsApart hxs h).eq_sortOn_iff Limits.number_orderKey hdefined fun _ hx => hx⟩
  · refine ⟨Limits.same_orderKey_iff hv hw, fun h => ?_, fun hva hwa => ?_⟩
    · exact ⟨sortOn_pair_of_same Limits.number_orderKey hv.isUndefined_eq hw.isUndefined_eq h.same,
        sortOn_pair_of_same Limits.number_orderKey hw.isUndefined_eq hv.isUndefined_eq h.symm.same⟩
    · unfold lowerBy
      rw [Limits.orderKey_eq hva, Limits.orderKey_eq hwa]
      exact orderKey_lt_iff hv hw
  · exact ⟨Limits.tellsApart_of_admits hxs, Limits.canonicalOrder_eq hxs⟩
  · refine KeptApart.isStrictTotalOrder Limits.number_orderKey (fun v hv => hv.1.isUndefined_eq) ?_
    intro v w ⟨hv, hva⟩ ⟨hw, hwa⟩ hsame
    rw [Limits.orderKey_eq hva, Limits.orderKey_eq hwa] at hsame
    exact keptApart_composed v w hv hw hsame
  · exact fun P hP => sortsAlike_iff_keptApart Limits.number_orderKey hP

/-- Texts and bytes that look like parts of tuples, numbers of one and of two
digits, and a label listed twice. -/
def lookalikes : List Value :=
  [.int 10, .text "', '", .tuple [.text "a", .text "b"], .int 2, .tuple [.text "a', 'b"], .bool true, .bytes [0x27],
    .tuple [.int 1], .null, .text "1", .int 2]

/-- A tuple around a whole number with one digit too many. -/
def longTuple (n : Nat) : Value := .tuple [.int (Nat.pow 10 Limits.usual.digits + n : Nat)]

theorem composed_longTuple (n : Nat) : Composed false (longTuple n) :=
  .tuple (List.forall_mem_singleton.mpr (.int _))

theorem longTuple_inj {m n : Nat} (h : longTuple m = longTuple n) : m = n := by
  injection h with h
  injection h with h
  injection h with h
  exact Nat.add_left_cancel (Int.ofNat.inj h)

theorem clash_longTuple (m n : Nat) : Limits.usual.Clash (longTuple m) (longTuple n) := by
  have hexcess (n : Nat) : Limits.usual.excess? .writing (longTuple n) = some .digits :=
    Limits.excess?_of_long (by decide) (Nat.le_add_right _ _)
  exact .tuples (hexcess m) (hexcess n)

/-- The two zeros are equal, but no composed labels. -/
def IsZero (v : Value) : Prop := v = .float .negativeZero ∨ v = .float (.finite 0)

theorem canonicalOrder_is_canonical_form_lookalikes :
    (∀ x ∈ lookalikes, Composed false x ∧ Limits.usual.Admits .writing x) ∧ Limits.usual.TellsApart lookalikes ∧
    Limits.usual.canonicalOrder lookalikes.reverse = Limits.usual.canonicalOrder lookalikes ∧
    Limits.usual.Clash (longTuple 1) (longTuple 0) ∧
    Limits.usual.canonicalOrder [longTuple 1, longTuple 0] = [longTuple 1, longTuple 0] ∧
    (∀ v, IsZero v → v.isUndefined = false) ∧ SortsAlike Limits.usual.orderKey IsZero := by
  have hcomposed : ∀ x ∈ lookalikes, Composed false x := by decide +kernel
  have hwritten : ∀ x ∈ lookalikes, Limits.usual.excess? .writing x = none := by decide +kernel
  have hadmits : ∀ x ∈ lookalikes, Limits.usual.Admits .writing x :=
    fun x hx => Limits.excess?_eq_none_iff.mp (hwritten x hx)
  have hzero : ∀ v, IsZero v → v.isUndefined = false := by
    rintro v (rfl | rfl)
    · rfl
    · rfl
  obtain ⟨hlists, hkeys, happly, -, hkinds⟩ := canonicalOrder_is_canonical_form .usual
  have happart := (happly lookalikes hadmits).1
  have hclash := clash_longTuple 1 0
  refine ⟨fun x hx => ⟨hcomposed x hx, hadmits x hx⟩, happart, ?_, hclash, ?_, hzero, (hkinds _ hzero).mpr ?_⟩
  · exact (((hlists lookalikes hcomposed).2 happart lookalikes.reverse).1).mpr (List.reverse_perm _)
  · exact ((hkeys _ _ (composed_longTuple 1) (composed_longTuple 0)).2.1 hclash).1
  · rintro v w (rfl | rfl) (rfl | rfl) h
    · rfl
    · exact absurd h (by decide +kernel)
    · exact absurd h (by decide +kernel)
    · rfl

/-- Two tuples of composed labels that are sorted as they are listed, and an
integer that is below a truth value and sorted behind it. -/
theorem canonicalOrder_follows_listing :
    ((∀ x ∈ [longTuple 0, longTuple 1], Composed false x) ∧ [longTuple 1, longTuple 0].Perm [longTuple 0, longTuple 1] ∧
      Limits.usual.canonicalOrder [longTuple 0, longTuple 1] = [longTuple 0, longTuple 1] ∧
      Limits.usual.canonicalOrder [longTuple 1, longTuple 0] ≠ [longTuple 0, longTuple 1]) ∧
    Limits.usual.canonicalOrder [int (-1), bool true] = [bool true, int (-1)] := by
  have hstays (m n : Nat) : Limits.usual.canonicalOrder [longTuple m, longTuple n] = [longTuple m, longTuple n] :=
    sortOn_pair_of_same Limits.number_orderKey rfl rfl (clash_longTuple m n).same
  refine ⟨⟨List.forall_mem_cons.mpr ⟨composed_longTuple 0, List.forall_mem_singleton.mpr (composed_longTuple 1)⟩,
    .swap _ _ _, hstays 0 1, ?_⟩, Limits.canonicalOrder_int_bool (-1) true⟩
  rw [hstays 1 0]
  exact fun h => Nat.one_ne_zero (longTuple_inj (List.cons.inj h).1)

end Value

end FiniteAutomata
