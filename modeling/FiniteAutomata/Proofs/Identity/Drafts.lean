import FiniteAutomata.Draft.Identity
import FiniteAutomata.Proofs.Identity.Labels

/-!
# What the canonical text of a draft tells

A record is told from its text when its fields are known
(`Value.fieldsText_eq_iff`). So drafts have the same canonical text exactly
when they are of one kind and declare identical labels and edges, each list in
an order of its own (`Draft.identityText_eq_iff`).
-/

namespace FiniteAutomata

open Value (Composed)

/-! ## Records -/

theorem eq_of_perm_zip {α β : Type} {ks : List α} (hks : ks.Nodup) {xs ys : List β} (hx : xs.length = ks.length)
    (hy : ys.length = ks.length) (h : (ks.zip xs).Perm (ks.zip ys)) : xs = ys := by
  induction ks generalizing xs ys with
  | nil =>
    rw [List.length_eq_zero_iff.mp hx, List.length_eq_zero_iff.mp hy]
  | cons k ks ih =>
    obtain ⟨x, xs, rfl⟩ := List.exists_cons_of_length_eq_add_one hx
    obtain ⟨y, ys, rfl⟩ := List.exists_cons_of_length_eq_add_one hy
    obtain ⟨hk, hks⟩ := List.nodup_cons.mp hks
    rw [List.zip_cons_cons, List.zip_cons_cons] at h
    obtain rfl : x = y := by
      rcases List.mem_cons.mp (h.mem_iff.mp List.mem_cons_self) with heq | hmem
      · exact (Prod.mk.inj heq).2
      · exact absurd (List.of_mem_zip hmem).1 hk
    rw [ih hks (Nat.succ.inj hx) (Nat.succ.inj hy) (h.cons_inv)]

namespace Value

theorem perm_sortItems (items : List (String × String)) : (sortItems items).Perm items := perm_sortBy _ items

def itemText (item : String × String) : String := Json.array [item.1, item.2]

theorem recordText_eq_tagged {items : List (String × String)} (hne : items ≠ []) :
    recordText items = Json.object "__dict_items__" (Json.array ((sortItems items).map itemText)) :=
  if_neg (by simpa using hne)

theorem isJson_itemText {item : String × String} (h : IsJson item.1 ∧ IsJson item.2) : IsJson (itemText item) := by
  have hparts : ∀ x ∈ [item.1, item.2], IsJson x := by simpa using h
  exact (WrittenJson.array hparts).isJson

theorem itemText_inj {item item' : String × String} (h : IsJson item.1 ∧ IsJson item.2)
    (h' : IsJson item'.1 ∧ IsJson item'.2) (heq : itemText item = itemText item') : item = item' := by
  obtain ⟨hkey, hrest⟩ := List.cons.inj (IsJson.array_inj (by simpa using h) (by simpa using h') heq)
  exact Prod.ext hkey (List.cons.inj hrest).1

section
variable {items items' : List (String × String)}
variable (hjson : ∀ item ∈ items, IsJson item.1 ∧ IsJson item.2)
include hjson

theorem isJson_sorted : ∀ item ∈ sortItems items, IsJson item.1 ∧ IsJson item.2 :=
  fun item hitem => hjson item ((perm_sortItems items).mem_iff.mp hitem)

theorem isJson_sorted_texts : ∀ x ∈ (sortItems items).map itemText, IsJson x :=
  List.forall_mem_map.mpr fun item hitem => isJson_itemText (isJson_sorted hjson item hitem)

theorem isJson_recordText (hne : items ≠ []) : IsJson (recordText items) := by
  rw [recordText_eq_tagged hne]
  exact IsJson.tagged _ (isJson_sorted_texts hjson)

theorem perm_of_recordText_eq (hjson' : ∀ item ∈ items', IsJson item.1 ∧ IsJson item.2) (hne : items ≠ [])
    (hne' : items' ≠ []) (h : recordText items = recordText items') : items.Perm items' := by
  rw [recordText_eq_tagged hne, recordText_eq_tagged hne',
    tagged_eq_iff (isJson_sorted_texts hjson) (isJson_sorted_texts hjson')] at h
  have hsorted : sortItems items = sortItems items' := by
    rw [map_eq_map_iff (R := Eq), List.forall₂_eq_eq_eq] at h
    · exact h.2
    · intro item hitem item' hitem'
      exact ⟨itemText_inj (isJson_sorted hjson item hitem) (isJson_sorted hjson' item' hitem'), congrArg itemText⟩
  have hperm := perm_sortItems items'
  rw [← hsorted] at hperm
  exact (perm_sortItems items).symm.trans hperm

end

/-! ## Records of known fields -/

def keyText (name : String) : String := (text name).canonicalText

theorem isJson_keyText (name : String) : IsJson (keyText name) := by
  have hname : Composed false (text name) := .text name
  exact isJson_canonicalText hname

theorem keyText_inj {m n : String} (h : keyText m = keyText n) : m = n := by
  have hm : Composed false (text m) := .text m
  cases (canonicalText_eq_iff hm (.text n)).mp h
  rfl

def fieldsText (names bodies : List String) : String := recordText ((names.map keyText).zip bodies)

section
variable {names xs ys : List String}

theorem isJson_fields (hxs : ∀ x ∈ xs, IsJson x) :
    ∀ item ∈ (names.map keyText).zip xs, IsJson item.1 ∧ IsJson item.2 := by
  intro item hitem
  obtain ⟨hkey, hbody⟩ := List.of_mem_zip hitem
  obtain ⟨name, -, hname⟩ := List.mem_map.mp hkey
  rw [← hname]
  exact ⟨isJson_keyText name, hxs _ hbody⟩

theorem fields_ne_nil (hne : names ≠ []) (hx : xs.length = names.length) : (names.map keyText).zip xs ≠ [] := by
  intro hnil
  have hlength := congrArg List.length hnil
  rw [List.length_zip, List.length_map, hx, Nat.min_self] at hlength
  exact hne (List.length_eq_zero_iff.mp hlength)

theorem isJson_fieldsText (hne : names ≠ []) (hx : xs.length = names.length) (hxs : ∀ x ∈ xs, IsJson x) :
    IsJson (fieldsText names xs) :=
  isJson_recordText (isJson_fields hxs) (fields_ne_nil hne hx)

theorem fieldsText_eq_iff (hnames : names.Nodup) (hne : names ≠ []) (hx : xs.length = names.length)
    (hy : ys.length = names.length) (hxs : ∀ x ∈ xs, IsJson x) (hys : ∀ y ∈ ys, IsJson y) :
    fieldsText names xs = fieldsText names ys ↔ xs = ys := by
  constructor
  · intro h
    have hperm := perm_of_recordText_eq (isJson_fields hxs) (isJson_fields hys) (fields_ne_nil hne hx)
      (fields_ne_nil hne hy) h
    have hkeys : (names.map keyText).Nodup := hnames.map fun _ _ => keyText_inj
    exact eq_of_perm_zip hkeys (by simpa using hx) (by simpa using hy) hperm
  · rintro rfl
    rfl

end

theorem canonicalText_list (xs : List Value) : (list xs).canonicalText = multisetText (xs.map canonicalText) := by
  rw [canonicalText, canonicalTexts_eq_map]

section
variable {α : Type} {f : α → String} {R : α → α → Prop} {xs ys : List α}
variable (hxs : ∀ x ∈ xs, IsJson (f x))
include hxs

theorem isJson_sorted_map : ∀ t ∈ sortTexts (xs.map f), IsJson t := by
  intro t ht
  obtain ⟨x, hx, rfl⟩ := List.mem_map.mp ((perm_sortTexts _).mem_iff.mp ht)
  exact hxs x hx

theorem isJson_multisetText_map : IsJson (multisetText (xs.map f)) := IsJson.tagged _ (isJson_sorted_map hxs)

theorem multisetText_map_eq_iff (hys : ∀ y ∈ ys, IsJson (f y)) (h : ∀ x ∈ xs, ∀ y ∈ ys, f x = f y ↔ R x y) :
    multisetText (xs.map f) = multisetText (ys.map f) ↔ Multiset.Rel R (xs : Multiset α) ys := by
  unfold multisetText
  rw [tagged_eq_iff (isJson_sorted_map hxs) (isJson_sorted_map hys), sortTexts_map_eq_iff h]
  exact and_iff_right rfl

end

theorem labelsText_eq_iff {sets : Bool} {xs ys : List Value} (hxs : ∀ x ∈ xs, Composed sets x)
    (hys : ∀ y ∈ ys, Composed sets y) : multisetText (xs.map canonicalText) = multisetText (ys.map canonicalText) ↔
      Multiset.Rel Identical (xs : Multiset Value) ys :=
  multisetText_map_eq_iff (fun x hx => isJson_canonicalText (hxs x hx))
    (fun y hy => isJson_canonicalText (hys y hy)) fun x hx y hy => canonicalText_eq_iff (hxs x hx) (hys y hy)

end Value

/-! ## Edges -/

namespace Transition

structure Identical (t u : Transition) : Prop where
  source : t.source.Identical u.source
  symbol : t.symbol.Identical u.symbol
  target : t.target.Identical u.target

def IsComposed (sets : Bool) (t : Transition) : Prop :=
  Composed sets t.source ∧ Composed sets t.symbol ∧ Composed sets t.target

def fields : List String := ["source", "symbol", "target"]

def bodies (t : Transition) : List String :=
  [t.source.canonicalText, t.symbol.canonicalText, t.target.canonicalText]

theorem canonicalText_record (t : Transition) : t.record.canonicalText = Value.fieldsText fields t.bodies := rfl

theorem length_bodies (t : Transition) : t.bodies.length = fields.length := rfl

variable {sets : Bool} {t u : Transition}

theorem isJson_bodies (ht : t.IsComposed sets) : ∀ x ∈ t.bodies, IsJson x := by
  simp only [bodies, List.forall_mem_cons, List.not_mem_nil, false_implies, implies_true, and_true]
  exact ⟨Value.isJson_canonicalText ht.1, Value.isJson_canonicalText ht.2.1, Value.isJson_canonicalText ht.2.2⟩

theorem isJson_canonicalText_record (ht : t.IsComposed sets) : IsJson t.record.canonicalText := by
  rw [canonicalText_record]
  exact Value.isJson_fieldsText (by decide) t.length_bodies (isJson_bodies ht)

theorem canonicalText_record_eq_iff (ht : t.IsComposed sets) (hu : u.IsComposed sets) :
    t.record.canonicalText = u.record.canonicalText ↔ t.Identical u := by
  rw [canonicalText_record, canonicalText_record,
    Value.fieldsText_eq_iff (by decide) (by decide) t.length_bodies u.length_bodies (isJson_bodies ht)
      (isJson_bodies hu)]
  simp only [bodies, List.cons.injEq, and_true, Value.canonicalText_eq_iff ht.1 hu.1,
    Value.canonicalText_eq_iff ht.2.1 hu.2.1, Value.canonicalText_eq_iff ht.2.2 hu.2.2]
  exact ⟨fun ⟨hs, hy, ht⟩ => ⟨hs, hy, ht⟩, fun ⟨hs, hy, ht⟩ => ⟨hs, hy, ht⟩⟩

theorem recordsText_eq_iff {ts us : List Transition} (hts : ∀ t ∈ ts, t.IsComposed sets)
    (hus : ∀ u ∈ us, u.IsComposed sets) :
    Value.multisetText (ts.map fun t => t.record.canonicalText) =
      Value.multisetText (us.map fun u => u.record.canonicalText) ↔
      Multiset.Rel Identical (ts : Multiset Transition) us :=
  Value.multisetText_map_eq_iff (fun t ht => isJson_canonicalText_record (hts t ht))
    (fun u hu => isJson_canonicalText_record (hus u hu))
    fun t ht u hu => canonicalText_record_eq_iff (hts t ht) (hus u hu)

end Transition

/-! ## Drafts -/

namespace Draft

/-- Of one kind and with identical declarations, in an order of its own for
each of the four lists. -/
structure Rearranged (d d' : Draft) : Prop where
  kind : d.kind = d'.kind
  states : Multiset.Rel Value.Identical (d.states : Multiset Value) d'.states
  alphabet : Multiset.Rel Value.Identical (d.alphabet : Multiset Value) d'.alphabet
  initial : d.initial.Identical d'.initial
  finals : Multiset.Rel Value.Identical (d.finals : Multiset Value) d'.finals
  transitions : Multiset.Rel Transition.Identical (d.transitions : Multiset Transition) d'.transitions

def fields : List String := ["kind", "states", "alphabet", "initial_state", "final_states", "transitions"]

def bodies (d : Draft) : List String :=
  [Value.keyText d.kind.name,
    Value.multisetText (d.states.map Value.canonicalText),
    Value.multisetText (d.alphabet.map Value.canonicalText),
    d.initial.canonicalText,
    Value.multisetText (d.finals.map Value.canonicalText),
    Value.multisetText (d.transitions.map fun t => t.record.canonicalText)]

theorem identityText_eq_fieldsText (d : Draft) : d.identityText = Value.fieldsText fields d.bodies := by
  have htransitions : (Value.list (d.transitions.map Transition.record)).canonicalText =
      Value.multisetText (d.transitions.map fun t => t.record.canonicalText) := by
    rw [Value.canonicalText_list, List.map_map]
    rfl
  unfold identityText record bodies
  rw [← Value.canonicalText_list, ← Value.canonicalText_list, ← Value.canonicalText_list, ← htransitions]
  rfl

theorem keyText_name_eq_iff {k k' : Kind} : Value.keyText k.name = Value.keyText k'.name ↔ k = k' := by
  constructor
  · intro h
    have hname := Kind.ofName?_name k
    rw [Value.keyText_inj h, Kind.ofName?_name] at hname
    exact (Option.some.inj hname).symm
  · rintro rfl
    rfl

theorem length_bodies (d : Draft) : d.bodies.length = fields.length := rfl

section
variable {sets : Bool} {d d' : Draft} (hd : ∀ v ∈ d.labels, Composed sets v)
include hd

theorem isJson_bodies : ∀ x ∈ d.bodies, IsJson x := by
  obtain ⟨hstates, halphabet, hinitial, hfinals, htransitions⟩ := forall_labels.mp hd
  simp only [bodies, List.forall_mem_cons, List.not_mem_nil, false_implies, implies_true, and_true]
  exact ⟨Value.isJson_keyText _,
    Value.isJson_multisetText_map fun v hv => Value.isJson_canonicalText (hstates v hv),
    Value.isJson_multisetText_map fun v hv => Value.isJson_canonicalText (halphabet v hv),
    Value.isJson_canonicalText hinitial,
    Value.isJson_multisetText_map fun v hv => Value.isJson_canonicalText (hfinals v hv),
    Value.isJson_multisetText_map fun t ht => Transition.isJson_canonicalText_record (htransitions t ht)⟩

theorem bodies_eq_iff (hd' : ∀ v ∈ d'.labels, Composed sets v) : d.bodies = d'.bodies ↔ d.Rearranged d' := by
  obtain ⟨hstates, halphabet, hinitial, hfinals, htransitions⟩ := forall_labels.mp hd
  obtain ⟨hstates', halphabet', hinitial', hfinals', htransitions'⟩ := forall_labels.mp hd'
  simp only [bodies, List.cons.injEq, and_true, keyText_name_eq_iff, Value.labelsText_eq_iff hstates hstates',
    Value.labelsText_eq_iff halphabet halphabet', Value.canonicalText_eq_iff hinitial hinitial',
    Value.labelsText_eq_iff hfinals hfinals', Transition.recordsText_eq_iff htransitions htransitions']
  constructor
  · rintro ⟨hkind, hstates, halphabet, hinitial, hfinals, htransitions⟩
    exact ⟨hkind, hstates, halphabet, hinitial, hfinals, htransitions⟩
  · rintro ⟨hkind, hstates, halphabet, hinitial, hfinals, htransitions⟩
    exact ⟨hkind, hstates, halphabet, hinitial, hfinals, htransitions⟩

end

/-- The text whose digest names a draft tells everything but the order of the
declarations. -/
theorem identityText_eq_iff {d d' : Draft} (hd : ∀ v ∈ d.labels, Composed true v)
    (hd' : ∀ v ∈ d'.labels, Composed true v) : d.identityText = d'.identityText ↔ d.Rearranged d' := by
  rw [identityText_eq_fieldsText, identityText_eq_fieldsText,
    Value.fieldsText_eq_iff (by decide) (by decide) d.length_bodies d'.length_bodies (isJson_bodies hd)
      (isJson_bodies hd')]
  exact bodies_eq_iff hd hd'

def paired : Draft :=
  ⟨.nfa, [.int 0, .frozenSet [.int 1, .text "1"]], [.bytes [0x27]], .int 0, [], [⟨.int 0, .bytes [0x27], .int 0⟩]⟩

/-- The states and the members of the set are given in the other order. -/
def turned : Draft := { paired with states := [.frozenSet [.text "1", .int 1], .int 0] }

theorem identityText_eq_iff_paired : (∀ v ∈ paired.labels, Composed true v) ∧
    (∀ v ∈ turned.labels, Composed true v) ∧ paired.identityText = turned.identityText ∧
      (∀ v ∈ { turned with initial := .bool false }.labels, Composed true v) ∧
        paired.identityText ≠ { turned with initial := .bool false }.identityText := by
  have hpaired : ∀ v ∈ paired.labels, Composed true v := by decide
  have hturned : ∀ v ∈ turned.labels, Composed true v := by decide
  have haliased : ∀ v ∈ { turned with initial := .bool false }.labels, Composed true v := by decide
  have hswap {v v' w w' : Value} (hv : v.Identical v') (hw : w.Identical w') :
      Multiset.Rel Value.Identical ([v, w] : List Value) ([w', v'] : List Value) := by
    rw [Multiset.coe_eq_coe.mpr (List.Perm.swap v' w' [])]
    exact .cons hv (.cons hw .zero)
  refine ⟨hpaired, hturned, (identityText_eq_iff hpaired hturned).mpr ?_, haliased, fun h => ?_⟩
  · exact ⟨rfl, hswap (.int 0) (.frozenSet (hswap (.int 1) (.text "1"))), .cons (.bytes _) .zero, .int 0, .zero,
      .cons ⟨.int 0, .bytes _, .int 0⟩ .zero⟩
  · cases ((identityText_eq_iff hpaired haliased).mp h).initial

end Draft

end FiniteAutomata
