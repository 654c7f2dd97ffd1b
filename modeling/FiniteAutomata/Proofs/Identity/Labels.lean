import FiniteAutomata.Proofs.Text.Json
import FiniteAutomata.Value.Composed
import Mathlib.Data.Multiset.MapFold
import Mathlib.Data.Multiset.ZeroCons

/-!
# What the canonical text of a label tells

Sorting makes the canonical text blind to the order of the members of a set
(`sortTexts_eq_iff`), and nothing else is lost: labels have the same canonical
text exactly when they are identical (`Value.canonicalText_eq_iff`).
-/

namespace FiniteAutomata

open Value (Composed)

/-! ## Sorted texts -/

theorem isOrder_texts (xs : List String) : IsOrder (fun a b => decide (a < b)) xs where
  asymm x _ y _ h := decide_eq_false (String.lt_asymm (of_decide_eq_true h))
  trans x _ y _ z _ hyx hzy := by
    have hxy := String.not_lt.mp (of_decide_eq_false hyx)
    have hyz := String.not_lt.mp (of_decide_eq_false hzy)
    exact decide_eq_false (String.not_lt.mpr (String.le_trans hxy hyz))

theorem perm_sortTexts (xs : List String) : (sortTexts xs).Perm xs := perm_sortBy _ xs

theorem sortTexts_eq_iff {xs ys : List String} : sortTexts xs = sortTexts ys ↔ xs.Perm ys := by
  constructor
  · intro h
    have hperm := perm_sortTexts ys
    rw [← h] at hperm
    exact (perm_sortTexts xs).symm.trans hperm
  · intro h
    have hsorted (zs : List String) : (sortTexts zs).Pairwise (· ≤ ·) :=
      (sorted_sortBy (isOrder_texts zs)).imp fun hlt => String.not_lt.mp (of_decide_eq_false hlt)
    have hperm : (sortTexts xs).Perm (sortTexts ys) :=
      (perm_sortTexts xs).trans (h.trans (perm_sortTexts ys).symm)
    exact hperm.eq_of_pairwise (fun _ _ _ _ => String.le_antisymm) (hsorted xs) (hsorted ys)

/-! ## Tagged lists of texts -/

theorem IsJson.bare {s : String} (hne : s.toList ≠ []) (h : s.toList.all isBare = true) : IsJson s :=
  (WrittenJson.bare hne (List.all_eq_true.mp h)).isJson

theorem IsJson.tagged {items : List String} (tag : String) (h : ∀ x ∈ items, IsJson x) :
    IsJson (Json.object tag (Json.array items)) :=
  (WrittenJson.object tag (WrittenJson.array h).isJson).isJson

theorem tagged_eq_iff {xs ys : List String} {m n : String} (hxs : ∀ x ∈ xs, IsJson x) (hys : ∀ y ∈ ys, IsJson y) :
    Json.object m (Json.array xs) = Json.object n (Json.array ys) ↔ m = n ∧ xs = ys := by
  constructor
  · intro h
    obtain ⟨hname, hbody⟩ := IsJson.object_inj (WrittenJson.array hxs).isJson (WrittenJson.array hys).isJson h
    exact ⟨hname, IsJson.array_inj hxs hys hbody⟩
  · rintro ⟨rfl, rfl⟩
    rfl

theorem json_text_eq_iff {s t : String} : JsonString.text s = JsonString.text t ↔ s = t := by
  constructor
  · intro h
    exact (json_text_inj (r := []) (u := []) (by rw [h])).1
  · rintro rfl
    rfl

section
variable {α : Type} {f : α → String} {R : α → α → Prop} {xs ys : List α}
variable (h : ∀ x ∈ xs, ∀ y ∈ ys, f x = f y ↔ R x y)
include h

theorem map_eq_map_iff : xs.map f = ys.map f ↔ List.Forall₂ R xs ys := by
  induction xs generalizing ys with
  | nil => cases ys <;> simp
  | cons x xs ih =>
    cases ys with
    | nil => simp
    | cons y ys =>
      have hrest : xs.map f = ys.map f ↔ List.Forall₂ R xs ys :=
        ih fun x hx y hy => h x (List.mem_cons_of_mem _ hx) y (List.mem_cons_of_mem _ hy)
      rw [List.map_cons, List.map_cons, List.cons.injEq, List.forall₂_cons,
        h x List.mem_cons_self y List.mem_cons_self, hrest]

theorem sortTexts_map_eq_iff :
    sortTexts (xs.map f) = sortTexts (ys.map f) ↔ Multiset.Rel R (xs : Multiset α) ys := by
  rw [sortTexts_eq_iff, ← Multiset.coe_eq_coe, ← Multiset.map_coe, ← Multiset.map_coe, ← Multiset.rel_eq,
    Multiset.rel_map]
  constructor
  · intro hrel
    exact hrel.mono fun x hx y hy => (h x hx y hy).mp
  · intro hrel
    exact hrel.mono fun x hx y hy => (h x hx y hy).mpr

end

/-! ## Labels -/

namespace Value

/-- Alike in all but the order in which the members of sets are held. -/
inductive Identical : Value → Value → Prop where
  | null : Identical null null
  | bool (b : Bool) : Identical (bool b) (bool b)
  | int (n : Int) : Identical (int n) (int n)
  | text (s : String) : Identical (text s) (text s)
  | bytes (bs : List UInt8) : Identical (bytes bs) (bytes bs)
  | tuple {xs ys : List Value} (h : List.Forall₂ Identical xs ys) : Identical (tuple xs) (tuple ys)
  | frozenSet {xs ys : List Value} (h : Multiset.Rel Identical (xs : Multiset Value) ys) :
      Identical (frozenSet xs) (frozenSet ys)

theorem canonicalTexts_eq_map (xs : List Value) : canonicalTexts xs = xs.map canonicalText := by
  induction xs with
  | nil => rfl
  | cons x xs ih => simp [canonicalTexts, ih]

def tag : Value → String
  | bytes _ => "__repr__"
  | tuple _ => "__tuple__"
  | frozenSet _ => "__multiset__"
  | _ => "__scalar__"

def parts : Value → List String
  | null => [JsonString.text "NoneType", "null"]
  | bool b => [JsonString.text "bool", if b then "true" else "false"]
  | int n => [JsonString.text "int", toString n]
  | text s => [JsonString.text "str", JsonString.text s]
  | bytes bs =>
    [JsonString.text "builtins", JsonString.text "bytes", "0",
      JsonString.text (String.ofList (Quoted.bytes bs))]
  | tuple xs => xs.map canonicalText
  | frozenSet xs => sortTexts (xs.map canonicalText)
  | _ => []

theorem parts_bool_inj {b c : Bool} (h : (bool b).parts = (bool c).parts) : b = c := by
  have hbody : (if b then "true" else "false") = if c then "true" else "false" :=
    (List.cons.inj (List.cons.inj h).2).1
  revert hbody
  cases b <;> cases c <;> decide

theorem parts_int_inj {m n : Int} (h : (int m).parts = (int n).parts) : m = n := by
  have hbody : toString m = toString n := (List.cons.inj (List.cons.inj h).2).1
  exact toString_int_inj (congrArg String.toList hbody)

theorem parts_text_inj {s t : String} (h : (text s).parts = (text t).parts) : s = t :=
  json_text_eq_iff.mp (List.cons.inj (List.cons.inj h).2).1

theorem parts_bytes_inj {as bs : List UInt8} (h : (bytes as).parts = (bytes bs).parts) : as = bs := by
  have hchars : Quoted.bytes as = Quoted.bytes bs := by
    simpa [parts, json_text_eq_iff, String.ofList_inj] using h
  exact (bytes_inj (r := []) (s := []) (by rw [hchars])).1

section
variable {sets : Bool} {v w : Value}

theorem canonicalText_eq_tagged (hv : Composed sets v) :
    v.canonicalText = Json.object v.tag (Json.array v.parts) := by
  cases hv with
  | tuple h => rw [canonicalText, canonicalTexts_eq_map]; rfl
  | frozenSet _ h => rw [canonicalText, canonicalTexts_eq_map]; rfl
  | _ => rfl

theorem isJson_parts (hv : Composed sets v) : ∀ p ∈ v.parts, IsJson p := by
  have htext (s : String) : IsJson (JsonString.text s) := (WrittenJson.text s).isJson
  induction hv with
  | null =>
    have hnull : IsJson "null" := IsJson.bare (by simp) rfl
    simp [parts, htext, hnull]
  | bool b =>
    have hfalse : IsJson "false" := IsJson.bare (by simp) rfl
    have htrue : IsJson "true" := IsJson.bare (by simp) rfl
    cases b <;> simp [parts, htext, hfalse, htrue]
  | int n =>
    have hint : IsJson (toString n) :=
      IsJson.bare (toString_int_ne_nil n) (List.all_eq_true.mpr fun _ => isBare_of_mem_toString_int)
    simp only [parts, List.forall_mem_cons]
    exact ⟨htext _, hint, fun _ h => nomatch h⟩
  | text s => simp [parts, htext]
  | bytes bs =>
    have hzero : IsJson "0" := IsJson.bare (by simp) rfl
    simp [parts, htext, hzero]
  | tuple h ih =>
    refine List.forall_mem_map.mpr fun x hx => ?_
    rw [canonicalText_eq_tagged (h x hx)]
    exact IsJson.tagged _ (ih x hx)
  | frozenSet _ h ih =>
    intro p hp
    obtain ⟨x, hx, rfl⟩ := List.mem_map.mp ((perm_sortTexts _).mem_iff.mp hp)
    rw [canonicalText_eq_tagged (h x hx)]
    exact IsJson.tagged _ (ih x hx)

theorem isJson_canonicalText (hv : Composed sets v) : IsJson v.canonicalText := by
  rw [canonicalText_eq_tagged hv]
  exact IsJson.tagged _ (isJson_parts hv)

theorem canonicalText_eq_iff_parts (hv : Composed sets v) (hw : Composed sets w) :
    v.canonicalText = w.canonicalText ↔ v.tag = w.tag ∧ v.parts = w.parts := by
  rw [canonicalText_eq_tagged hv, canonicalText_eq_tagged hw]
  exact tagged_eq_iff (isJson_parts hv) (isJson_parts hw)

/-- Labels of one form without parts of their own are told apart by what
stands behind the tag. -/
theorem tag_parts_iff_of_inj {α : Type} {make : α → Value} {a b : α} (htag : (make a).tag = (make b).tag)
    (hself : Identical (make a) (make a)) (hparts : (make a).parts = (make b).parts → a = b)
    (heq : Identical (make a) (make b) → a = b) :
    (make a).tag = (make b).tag ∧ (make a).parts = (make b).parts ↔ Identical (make a) (make b) := by
  constructor
  · intro h
    rw [← hparts h.2]
    exact hself
  · intro h
    exact ⟨htag, by rw [heq h]⟩

section
variable {xs ys : List Value} (hxs : ∀ x ∈ xs, Composed sets x) (hys : ∀ y ∈ ys, Composed sets y)
variable (ih : ∀ x ∈ xs, ∀ y ∈ ys, x.tag = y.tag ∧ x.parts = y.parts ↔ Identical x y)
include hxs hys ih

theorem canonicalText_eq_iff_of_parts : ∀ x ∈ xs, ∀ y ∈ ys, x.canonicalText = y.canonicalText ↔ Identical x y :=
  fun x hx y hy => (canonicalText_eq_iff_parts (hxs x hx) (hys y hy)).trans (ih x hx y hy)

theorem parts_tuple_eq_iff : (tuple xs).parts = (tuple ys).parts ↔ Identical (tuple xs) (tuple ys) := by
  have hparts := map_eq_map_iff (canonicalText_eq_iff_of_parts hxs hys ih)
  constructor
  · intro h
    exact .tuple (hparts.mp h)
  · rintro ⟨⟩
    exact hparts.mpr ‹_›

theorem parts_frozenSet_eq_iff : (frozenSet xs).parts = (frozenSet ys).parts ↔ Identical (frozenSet xs) (frozenSet ys) := by
  have hparts := sortTexts_map_eq_iff (canonicalText_eq_iff_of_parts hxs hys ih)
  constructor
  · intro h
    exact .frozenSet (hparts.mp h)
  · rintro ⟨⟩
    exact hparts.mpr ‹_›

end

/-- Induction on the first value; a second one of another form differs in its
tag or its first part. -/
theorem tag_parts_iff (hv : Composed sets v) (hw : Composed sets w) :
    v.tag = w.tag ∧ v.parts = w.parts ↔ Identical v w := by
  induction hv generalizing w with
  | null =>
    cases hw with
    | null => exact iff_of_true ⟨rfl, rfl⟩ .null
    | _ => exact iff_of_false (by simp [tag, parts, json_text_eq_iff]) (nomatch ·)
  | bool b =>
    cases hw with
    | bool c => exact tag_parts_iff_of_inj rfl (.bool b) parts_bool_inj fun h => by cases h; rfl
    | _ => exact iff_of_false (by simp [tag, parts, json_text_eq_iff]) (nomatch ·)
  | int m =>
    cases hw with
    | int n => exact tag_parts_iff_of_inj rfl (.int m) parts_int_inj fun h => by cases h; rfl
    | _ => exact iff_of_false (by simp [tag, parts, json_text_eq_iff]) (nomatch ·)
  | text s =>
    cases hw with
    | text t => exact tag_parts_iff_of_inj rfl (.text s) parts_text_inj fun h => by cases h; rfl
    | _ => exact iff_of_false (by simp [tag, parts, json_text_eq_iff]) (nomatch ·)
  | bytes as =>
    cases hw with
    | bytes bs => exact tag_parts_iff_of_inj rfl (.bytes as) parts_bytes_inj fun h => by cases h; rfl
    | _ => exact iff_of_false (by simp [tag, parts]) (nomatch ·)
  | tuple hxs ih =>
    cases hw with
    | tuple hys =>
      rw [← parts_tuple_eq_iff hxs hys fun x hx y hy => ih x hx (hys y hy)]
      exact and_iff_right rfl
    | _ => exact iff_of_false (by simp [tag]) (nomatch ·)
  | frozenSet hsets hxs ih =>
    cases hw with
    | frozenSet _ hys =>
      rw [← parts_frozenSet_eq_iff hxs hys fun x hx y hy => ih x hx (hys y hy)]
      exact and_iff_right rfl
    | _ => exact iff_of_false (by simp [tag]) (nomatch ·)

theorem canonicalText_eq_iff (hv : Composed sets v) (hw : Composed sets w) :
    v.canonicalText = w.canonicalText ↔ Identical v w :=
  (canonicalText_eq_iff_parts hv hw).trans (tag_parts_iff hv hw)

end

end Value

end FiniteAutomata
