import FiniteAutomata.Proofs.Reports
import FiniteAutomata.Proofs.Text.Codes
import Mathlib.Data.List.Basic

/-!
# Where issues are told

Most stages of a check go through a list of declarations and tell something
about the elements that fail a test, each at its own places. So a stage tells
once at each of these places and nowhere else (`toldAt_flatMap_zipIdx`), and
this carries over to all issues of a draft, because no two stages share a code
(`filter_findings_of_isLenient`). Different places are written in different
ways (`Location.text_inj`).
-/

namespace FiniteAutomata

namespace Issue

/-! ## Codes and places as texts -/

theorem toDigits_append_inj {m n : Nat} {r s : List Char}
    (h : Nat.toDigits 10 m ++ ']' :: r = Nat.toDigits 10 n ++ ']' :: s) : m = n ∧ r = s := by
  have hbare (k : Nat) : ∀ c ∈ Nat.toDigits 10 k, isStop c = false := fun c hc =>
    not_stop_of_isBare (by simp [isBare, Char.isAlphanum, isDigit_of_mem_toDigits hc])
  have hdigits := eq_of_forall_not_stop (hbare m) (hbare n) (stops_cons rfl) (stops_cons rfl) h
  rw [hdigits] at h
  refine ⟨?_, (List.cons.inj (List.append_cancel_left h)).2⟩
  rw [← Nat.ofDigitChars_ten_toDigits (n := m), hdigits, Nat.ofDigitChars_ten_toDigits]

theorem Code.name_inj {code code' : Code} (h : code.name = code'.name) : code = code' := by
  cases code <;> cases code' <;> simp [name] at h ⊢

theorem Part.name_inj {p p' : Part} (h : p.name = p'.name) : p = p' := by
  cases p <;> cases p' <;> simp [name] at h ⊢

theorem Location.text_inj {l l' : Location} (h : l.text = l'.text) : l = l' := by
  have hchars := congrArg String.toList h
  -- places of different sorts differ in their names, but for an edge and its parts
  cases l <;> cases l' <;> simp [text, indexed] at hchars ⊢
  case edge.edgePart => cases (toDigits_append_inj hchars).2
  case edgePart.edge => cases (toDigits_append_inj hchars).2
  case edgePart.edgePart =>
    obtain ⟨hindex, hpart⟩ := toDigits_append_inj hchars
    exact ⟨hindex, Part.name_inj (String.toList_inj.mp (List.cons.inj hpart).2)⟩
  all_goals exact (toDigits_append_inj (congrArg (· ++ [']']) hchars)).1

theorem nodup_texts {is : List Issue} (h : (is.map fun i => (i.code, i.location)).Nodup) :
    (is.map fun i => (i.code.name, i.location.text)).Nodup := by
  refine List.pairwise_map.mpr ((List.pairwise_map.mp h).imp fun hne heq => hne ?_)
  obtain ⟨hcode, hlocation⟩ := Prod.mk.inj heq
  exact Prod.ext (Code.name_inj hcode) (Location.text_inj hlocation)

/-! ## Places that are told at -/

def Location.index : Location → Nat
  | symbol i => i
  | state i => i
  | final i => i
  | edge i => i
  | edgePart i _ => i
  | _ => 0

/-- Under the code something is told once at each of these places, of the
state that belongs there, and nowhere else. -/
structure ToldAt (is : List Issue) (code : Code) (places : Location → Value → Prop) : Prop where
  once : ((is.filter fun i => i.code = code).map location).Nodup
  exact : ∀ l q, (∃ i ∈ is, i.code = code ∧ i.location = l ∧ i.state = q) ↔ places l q

section
variable {is js : List Issue} {code : Code} {places : Location → Value → Prop}

theorem mem_filter_code {i : Issue} : i ∈ is.filter (fun i => i.code = code) ↔ i ∈ is ∧ i.code = code := by
  simp [List.mem_filter]

theorem ToldAt.congr {places' : Location → Value → Prop} (h : ToldAt is code places)
    (hplaces : ∀ l q, places l q ↔ places' l q) : ToldAt is code places' :=
  ⟨h.once, fun l q => (h.exact l q).trans (hplaces l q)⟩

theorem ToldAt.of_filter (h : ToldAt is code places)
    (heq : js.filter (fun i => i.code = code) = is.filter fun i => i.code = code) : ToldAt js code places := by
  constructor
  · rw [heq]
    exact h.once
  · intro l q
    rw [← h.exact l q]
    apply exists_congr; intro i
    rw [← and_assoc, ← mem_filter_code, heq, mem_filter_code, and_assoc]

theorem ToldAt.about (h : ToldAt is code places) (id : String) : ToldAt (is.map (Issue.about id)) code places := by
  constructor
  · rw [List.filter_map, List.map_map]
    exact h.once
  · intro l q
    rw [← h.exact l q]
    constructor
    · rintro ⟨i, hi, hcode, hlocation, hstate⟩
      obtain ⟨j, hj, rfl⟩ := List.mem_map.mp hi
      exact ⟨j, hj, hcode, hlocation, hstate⟩
    · rintro ⟨i, hi, hcode, hlocation, hstate⟩
      exact ⟨Issue.about id i, List.mem_map_of_mem hi, hcode, hlocation, hstate⟩

theorem toldAt_nil (code : Code) : ToldAt [] code fun _ _ => False := by
  constructor
  · exact List.nodup_nil
  · simp

theorem toldAt_singleton {i : Issue} (hcode : i.code = code) :
    ToldAt [i] code fun l q => l = i.location ∧ q = i.state := by
  constructor
  · simp [hcode]
  · simp [hcode, eq_comm]

theorem ToldAt.location_of_mem (h : ToldAt is code places) {l : Location}
    (hl : l ∈ (is.filter fun i => i.code = code).map location) : ∃ q, places l q := by
  obtain ⟨i, hi, rfl⟩ := List.mem_map.mp hl
  obtain ⟨hi, hcode⟩ := mem_filter_code.mp hi
  exact ⟨i.state, (h.exact _ _).mp ⟨i, hi, hcode, rfl, rfl⟩⟩

theorem ToldAt.append {places' : Location → Value → Prop} (h : ToldAt is code places) (h' : ToldAt js code places')
    (hapart : ∀ l q q', places l q → ¬ places' l q') : ToldAt (is ++ js) code fun l q => places l q ∨ places' l q := by
  constructor
  · rw [List.filter_append, List.map_append]
    refine List.nodup_append.mpr ⟨h.once, h'.once, fun l hl l' hl' heq => ?_⟩
    obtain ⟨q, hq⟩ := h.location_of_mem hl
    obtain ⟨q', hq'⟩ := h'.location_of_mem hl'
    rw [← heq] at hq'
    exact hapart l q q' hq hq'
  · intro l q
    rw [← h.exact, ← h'.exact]
    simp only [List.mem_append, or_and_right, exists_or]

theorem toldAt_ite (passes : Bool) {i : Issue} (hcode : i.code = code) :
    ToldAt (if passes then [] else [i]) code fun l q => passes = false ∧ l = i.location ∧ q = i.state := by
  cases passes with
  | true => exact (toldAt_nil code).congr (by simp)
  | false => exact (toldAt_singleton hcode).congr (by simp)

section
variable {α : Type} (xs : List α) {placesOf : α → Nat → Location → Value → Prop}
variable (hindex : ∀ x n l q, placesOf x n l q → l.index = n)
include hindex

/-- A stage that goes through a list tells of each element at places of its
own. -/
theorem toldAt_flatMap_zipIdx {told : α × Nat → List Issue} (h : ∀ x n, ToldAt (told (x, n)) code (placesOf x n)) :
    ToldAt (xs.zipIdx.flatMap told) code fun l q => ∃ n x, xs[n]? = some x ∧ placesOf x n l q := by
  constructor
  · have hapart : xs.zipIdx.Pairwise fun x y => x.2 ≠ y.2 := by
      apply List.pairwise_map.mp
      rw [List.zipIdx_map_snd]
      exact List.nodup_range'
    rw [List.filter_flatMap, List.map_flatMap]
    refine List.pairwise_flatMap.mpr ⟨fun x _ => (h x.1 x.2).once, ?_⟩
    apply hapart.imp
    intro x y hne l hl l' hl' heq
    obtain ⟨q, hq⟩ := (h x.1 x.2).location_of_mem hl
    obtain ⟨q', hq'⟩ := (h y.1 y.2).location_of_mem hl'
    rw [← hindex _ _ _ _ hq, ← hindex _ _ _ _ hq', heq] at hne
    exact hne rfl
  · intro l q
    simp only [List.mem_flatMap, Prod.exists, List.mem_zipIdx_iff_getElem?, ← (h _ _).exact]
    constructor
    · intro ⟨i, ⟨x, n, hx, hi⟩, hi'⟩
      exact ⟨n, x, hx, i, hi, hi'⟩
    · intro ⟨n, x, hx, i, hi, hi'⟩
      exact ⟨i, ⟨x, n, hx, hi⟩, hi'⟩

theorem toldAt_filterMap_zipIdx {told : α × Nat → Option Issue}
    (h : ∀ x n, ToldAt (told (x, n)).toList code (placesOf x n)) :
    ToldAt (xs.zipIdx.filterMap told) code fun l q => ∃ n x, xs[n]? = some x ∧ placesOf x n l q := by
  rw [List.filterMap_eq_flatMap_toList]
  exact toldAt_flatMap_zipIdx xs hindex h

end

/-- The elements that fail a test, each at its place. -/
theorem toldAt_zipIdx (xs : List Value) (passes : Value → Bool) (issue : Value → Nat → Issue) (place : Nat → Location)
    (hcode : ∀ x n, (issue x n).code = code) (hlocation : ∀ x n, (issue x n).location = place n)
    (hstate : ∀ x n, (issue x n).state = x) (hplace : ∀ n, (place n).index = n) :
    ToldAt (xs.zipIdx.filterMap fun (x, n) => if passes x then none else some (issue x n)) code
      fun l q => ∃ n, l = place n ∧ xs[n]? = some q ∧ passes q = false := by
  have htold (x : Value) (n : Nat) : ToldAt (if passes x then none else some (issue x n)).toList code
      fun l q => passes x = false ∧ l = place n ∧ q = x := by
    have hite := toldAt_ite (passes x) (hcode x n)
    rw [hlocation, hstate] at hite
    rw [apply_ite Option.toList]
    exact hite
  refine (toldAt_filterMap_zipIdx xs ?_ htold).congr ?_
  · rintro x n l q ⟨_, rfl, _⟩
    exact hplace n
  · intro l q
    constructor
    · rintro ⟨n, x, hx, hpasses, rfl, rfl⟩
      exact ⟨n, rfl, hx, hpasses⟩
    · rintro ⟨n, rfl, hx, hpasses⟩
      exact ⟨n, q, hx, hpasses, rfl, rfl⟩

end

end Issue

namespace Draft

variable {d : Draft}

open Issue (ToldAt)

theorem filter_code_eq_nil {is : List Issue} {code : Issue.Code} (h : ∀ i ∈ is, i.code ≠ code) :
    is.filter (fun i => i.code = code) = [] := by
  simpa using h

theorem code_ne_of_isTold {i : Issue} {code code' : Issue.Code} {severity : Severity} (h : i.IsTold code severity)
    (hcode : code.isLenient = false) (hcode' : code'.isLenient = true) : i.code ≠ code' := by
  rw [h.code]
  rintro rfl
  rw [hcode] at hcode'
  cases hcode'

/-- Only two stages are about reachability. -/
theorem filter_findings_of_isLenient {code : Issue.Code} (hcode : code.isLenient = true) (strict : Bool) :
    (d.findings strict).filter (fun i => i.code = code) =
      (whenKnown d.live? (d.unreachableStates · strict) ++ whenKnown d.live? (d.unreachableFinals · strict)).filter
        fun i => i.code = code := by
  have hreserved := filter_code_eq_nil fun _ hi => code_ne_of_isTold (isTold_of_mem_reservedSymbols (d := d) hi) rfl hcode
  have hundeclared := filter_code_eq_nil fun _ hi => code_ne_of_isTold (isTold_of_mem_undeclared (d := d) hi) rfl hcode
  have hambiguous := filter_code_eq_nil fun _ hi => code_ne_of_isTold (isTold_of_mem_ambiguousMoves (d := d) hi) rfl hcode
  simp [findings_eq_append, hreserved, hundeclared, hambiguous]

theorem filter_of_isTold {is : List Issue} {code code' : Issue.Code} {severity : Severity}
    (h : ∀ i ∈ is, i.IsTold code' severity) : is.filter (fun i => i.code = code) = if code' = code then is else [] := by
  by_cases hcode : code' = code
  · rw [if_pos hcode]
    exact List.filter_eq_self.mpr fun i hi => by simp [(h i hi).code, hcode]
  · rw [if_neg hcode]
    exact filter_code_eq_nil fun i hi => by simpa [(h i hi).code] using hcode

/-- The stages about reachability do not tell under these codes. -/
theorem filter_findings_of_not_isLenient {code : Issue.Code} (hcode : code.isLenient = false) (strict : Bool) :
    (d.findings strict).filter (fun i => i.code = code) =
      (if .reservedSymbol = code then d.reservedSymbols else []) ++
        (if .undeclaredReference = code then d.undeclared else []) ++
          if .nonDeterministic = code then d.ambiguousMoves else [] := by
  have hstates : (whenKnown d.live? (d.unreachableStates · strict)).filter (fun i => i.code = code) = [] := by
    apply filter_code_eq_nil
    rintro i hi rfl
    obtain ⟨_, _, hi⟩ := mem_whenKnown.mp hi
    rw [(isTold_of_mem_unreachableStates hi).code] at hcode
    cases hcode
  have hfinals : (whenKnown d.live? (d.unreachableFinals · strict)).filter (fun i => i.code = code) = [] := by
    apply filter_code_eq_nil
    rintro i hi rfl
    obtain ⟨_, _, hi⟩ := mem_whenKnown.mp hi
    rcases isTold_of_mem_unreachableFinals hi with htold | htold
    · rw [htold.code] at hcode; cases hcode
    · rw [htold.code] at hcode; cases hcode
  rw [findings_eq_append]
  simp only [List.filter_append, hstates, hfinals, List.append_nil,
    filter_of_isTold fun _ => isTold_of_mem_reservedSymbols, filter_of_isTold fun _ => isTold_of_mem_undeclared,
    filter_of_isTold fun _ => isTold_of_mem_ambiguousMoves]

end Draft

end FiniteAutomata
