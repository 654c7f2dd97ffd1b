import FiniteAutomata.Proofs.Built.Drafts
import FiniteAutomata.Proofs.Errors
import FiniteAutomata.Proofs.Kinds

/-!
# Drafts with inferred declarations

A builder that infers declarations declares all that its calls refer to, and
the marker of silent edges is never inferred. So what it builds names nothing
undeclared (`DeclaresAll`), and no check of it tells of a reserved symbol or
of an undeclared label (`inferred_declarations_are_complete`). Calls that are
accepted with inference are accepted without it, and the drafts differ in
their declarations only (`DeclaresLess`).
-/

namespace FiniteAutomata

/-- Two of the edges have equal sources and symbols and lead to different
states. -/
def Splits (ts : List Transition) : Prop :=
  ∃ t ∈ ts, ∃ u ∈ ts, (t.source == u.source) = true ∧ (t.symbol == u.symbol) = true ∧ (t.target == u.target) = false

theorem splits_eraseDups_iff {ts : List Transition} : Splits ts.eraseDups ↔ Splits ts := by
  constructor
  · intro ⟨t, ht, u, hu, hsplit⟩
    exact ⟨t, mem_of_mem_eraseDups ht, u, mem_of_mem_eraseDups hu, hsplit⟩
  · intro ⟨t, ht, u, hu, hsource, hsymbol, htarget⟩
    have hkept : ∀ v ∈ ts, ∃ v' ∈ ts.eraseDups, (v == v') = true := fun v hv => by
      rw [← List.contains_iff_exists_mem_beq, contains_eraseDups]
      exact contains_of_mem hv
    obtain ⟨t', ht', htt'⟩ := hkept t ht
    obtain ⟨u', hu', huu'⟩ := hkept u hu
    obtain ⟨hts, hta, htt⟩ := Transition.beq_iff.mp htt'
    obtain ⟨hus, hua, hut⟩ := Transition.beq_iff.mp huu'
    refine ⟨t', ht', u', hu', ?_, ?_, ?_⟩
    · rw [← BEq.congr_left hts, ← BEq.congr_right hus, hsource]
    · rw [← BEq.congr_left hta, ← BEq.congr_right hua, hsymbol]
    · rw [← BEq.congr_left htt, ← BEq.congr_right hut, htarget]

/-! ## Calls without inference -/

namespace Call

theorem states_false_subset (c : Call) : c.states false ⊆ c.states true := by simp [states]

theorem symbols_false_subset (c : Call) : c.symbols false ⊆ c.symbols true := by simp [symbols]

theorem hashed_false_subset (c : Call) : c.hashed false ⊆ c.hashed true := by
  have hstates := c.states_false_subset
  have hsymbols := c.symbols_false_subset
  unfold hashed
  grind

theorem IsFit.without_inference {c : Call} (h : c.IsFit true) : c.IsFit false :=
  ⟨h.iterable, fun v hv => h.hashable v (c.hashed_false_subset hv)⟩

end Call

namespace Draft

/-! ## Drafts that declare all they name -/

structure DeclaresAll (d : Draft) : Prop where
  reserved : d.alphabet.contains epsilon = false
  initial : d.states.contains d.initial = true
  finals : ∀ q ∈ d.finals, d.states.contains q = true
  source : ∀ t ∈ d.transitions, d.states.contains t.source = true
  target : ∀ t ∈ d.transitions, d.states.contains t.target = true
  symbol : ∀ t ∈ d.transitions, d.Allows t

namespace DeclaresAll

variable {d : Draft} (h : d.DeclaresAll)
include h

theorem wellFormed_iff : d.WellFormed ↔ ¬ (d.kind = .dfa ∧ Splits d.transitions) := by
  constructor
  · rintro hwf ⟨hk, t, ht, u, hu, hsource, hsymbol, htarget⟩
    rw [hwf.deterministic hk t ht u hu hsource hsymbol] at htarget
    cases htarget
  · intro hnot
    refine ⟨h.reserved, h.initial, h.finals, h.source, h.target, h.symbol, ?_⟩
    intro hk t ht u hu hsource hsymbol
    rw [← Bool.not_eq_false]
    exact fun htarget => hnot ⟨hk, t, ht, u, hu, hsource, hsymbol, htarget⟩

theorem not_namesReserved {l : Issue.Location} {q : Value} : ¬ d.NamesReserved l q := by
  rintro ⟨n, a, ha, he, -, -⟩
  have hcontains := contains_of_beq (contains_of_mem (List.mem_of_getElem? ha)) he
  rw [h.reserved] at hcontains
  cases hcontains

theorem not_namesUndeclared {l : Issue.Location} {q : Value} : ¬ d.NamesUndeclared l q := by
  intro hnames
  cases hnames with
  | initial hnot => rw [h.initial] at hnot; cases hnot
  | final hq hnot => rw [h.finals _ (List.mem_of_getElem? hq)] at hnot; cases hnot
  | source ht hnot => rw [h.source _ (List.mem_of_getElem? ht)] at hnot; cases hnot
  | target ht hnot => rw [h.target _ (List.mem_of_getElem? ht)] at hnot; cases hnot
  | symbol ht hnot => exact hnot (h.symbol _ (List.mem_of_getElem? ht))

theorem code_ne {strict : Bool} {i : Issue} (hi : i ∈ d.findings strict) :
    i.code ≠ .reservedSymbol ∧ i.code ≠ .undeclaredReference := by
  constructor
  · intro hcode
    exact h.not_namesReserved (((toldAt_reservedSymbol strict).exact _ _).mp ⟨i, hi, hcode, rfl, rfl⟩)
  · intro hcode
    exact h.not_namesUndeclared (((toldAt_undeclaredReference strict).exact _ _).mp ⟨i, hi, hcode, rfl, rfl⟩)

variable (hashable : d.isHashable = true)
include hashable

theorem validate_eq_ok (strict failFast : Bool) : ∃ r, d.validate strict failFast = .ok r ∧
    ∀ i ∈ r.issues, i.code ≠ .reservedSymbol ∧ i.code ≠ .undeclaredReference := by
  refine ⟨_, validate_eq hashable strict failFast, fun i hi => ?_⟩
  obtain ⟨j, hj, rfl⟩ := List.mem_map.mp hi
  exact h.code_ne (i := j) (mem_of_mem_told hj)

theorem exists_yields_lenient_iff {failFast : Bool} :
    (∃ A, d.Yields false failFast A) ↔ ¬ (d.kind = .dfa ∧ Splits d.transitions) := by
  rw [exists_yields_iff, ← h.wellFormed_iff]
  exact ⟨Passes.wellFormed, fun hwf => ⟨hashable, hwf, nofun⟩⟩

end DeclaresAll

/-- The drafts differ in their declarations only, and the first one declares
no more than the other. -/
structure DeclaresLess (d d' : Draft) : Prop where
  kind : d.kind = d'.kind
  states : subsetOf d.states d'.states = true
  alphabet : subsetOf d.alphabet d'.alphabet = true
  initial : d.initial = d'.initial
  finals : d.finals = d'.finals
  transitions : d.transitions = d'.transitions

/-! ## What calls declare -/

section
variable {α : Type} [BEq α] [EquivBEq α] {give more : Call → List α} {calls : List Call} {x : α}

theorem exists_call_of_mem (h : x ∈ (calls.flatMap give).eraseDups) : ∃ c ∈ calls, x ∈ give c :=
  List.mem_flatMap.mp (mem_of_mem_eraseDups h)

theorem contains_of_call {c : Call} (hc : c ∈ calls) (hx : x ∈ give c) :
    (calls.flatMap give).eraseDups.contains x = true := by
  rw [contains_eraseDups]
  exact contains_of_mem (List.mem_flatMap.mpr ⟨c, hc, hx⟩)

theorem subsetOf_of_calls (h : ∀ c, give c ⊆ more c) :
    subsetOf (calls.flatMap give).eraseDups (calls.flatMap more).eraseDups = true := by
  refine subsetOf_iff.mpr fun x hx => ?_
  obtain ⟨c, hc, hxc⟩ := exists_call_of_mem hx
  exact contains_of_call hc (h c hxc)

end

section
variable {kind : Kind} {infer : Bool} {calls : List Call} {q : Value}

theorem isHashable_ofCalls (hfit : ∀ c ∈ calls, c.IsFit infer) (hq : q.isHashable = true) :
    (ofCalls kind infer calls q).isHashable = true := by
  refine List.all_eq_true.mpr (forall_labels.mpr ⟨fun p hp => ?_, fun a ha => ?_, hq, fun p hp => ?_, fun t ht => ?_⟩)
  · obtain ⟨c, hc, hp⟩ := exists_call_of_mem hp
    exact (hfit c hc).states p hp
  · obtain ⟨c, hc, ha⟩ := exists_call_of_mem ha
    exact (hfit c hc).symbols a ha
  · obtain ⟨c, hc, hp⟩ := exists_call_of_mem hp
    exact (hfit c hc).finals p hp
  · obtain ⟨c, hc, ht⟩ := exists_call_of_mem ht
    simpa using (hfit c hc).edges t ht

theorem contains_states_ofCalls {c : Call} (hc : c ∈ calls) {v : Value} (hv : v ∈ c.referredStates) :
    (ofCalls kind true calls q).states.contains v = true :=
  contains_of_call hc (List.mem_append_right _ hv)

theorem not_contains_epsilon (hreserved : ∀ a ∈ calls.flatMap Call.givenSymbols, (a == epsilon) = false) :
    (ofCalls kind true calls q).alphabet.contains epsilon = false := by
  rw [← Bool.not_eq_true]
  intro hcontains
  obtain ⟨a, ha, he⟩ := List.contains_iff_exists_mem_beq.mp hcontains
  obtain ⟨c, hc, ha⟩ := exists_call_of_mem ha
  rcases List.mem_append.mp ha with hgiven | hreferred
  · have hne := hreserved a (List.mem_flatMap.mpr ⟨c, hc, hgiven⟩)
    rw [BEq.symm he] at hne
    cases hne
  · -- the symbols of silent edges are left out
    obtain ⟨t, ht, rfl⟩ := List.mem_map.mp hreferred
    have hread := (List.mem_filter.mp ht).2
    rw [Transition.isEpsilon, BEq.symm he] at hread
    cases hread

theorem allows_ofCalls {t : Transition} (ht : t ∈ (ofCalls kind true calls q).transitions) :
    (ofCalls kind true calls q).Allows t := by
  unfold Allows
  by_cases he : t.isEpsilon = true
  · rw [if_pos he]
    exact if_pos (List.any_eq_true.mpr ⟨t, mem_of_mem_eraseDups ht, he⟩)
  · rw [if_neg he]
    obtain ⟨c, hc, ht⟩ := exists_call_of_mem ht
    have hsymbol : t.symbol ∈ c.referredSymbols := List.mem_map_of_mem (List.mem_filter.mpr ⟨ht, by simpa using he⟩)
    exact contains_of_call hc (List.mem_append_right _ hsymbol)

theorem declaresAll_ofCalls (hinitial : q ∈ calls.flatMap Call.initials)
    (hreserved : ∀ a ∈ calls.flatMap Call.givenSymbols, (a == epsilon) = false) :
    (ofCalls kind true calls q).DeclaresAll where
  reserved := not_contains_epsilon hreserved
  initial := by
    obtain ⟨c, hc, hq⟩ := List.mem_flatMap.mp hinitial
    exact contains_states_ofCalls hc (List.mem_append_left _ (List.mem_append_left _ hq))
  finals := fun p hp => by
    obtain ⟨c, hc, hp⟩ := exists_call_of_mem hp
    exact contains_states_ofCalls hc (List.mem_append_left _ (List.mem_append_right _ hp))
  source := fun t ht => by
    obtain ⟨c, hc, ht⟩ := exists_call_of_mem ht
    exact contains_states_ofCalls hc (List.mem_append_right _ (List.mem_flatMap.mpr ⟨t, ht, by simp⟩))
  target := fun t ht => by
    obtain ⟨c, hc, ht⟩ := exists_call_of_mem ht
    exact contains_states_ofCalls hc (List.mem_append_right _ (List.mem_flatMap.mpr ⟨t, ht, by simp⟩))
  symbol := fun t ht => allows_ofCalls ht

theorem declaresLess_ofCalls : (ofCalls kind false calls q).DeclaresLess (ofCalls kind true calls q) where
  kind := rfl
  states := subsetOf_of_calls Call.states_false_subset
  alphabet := subsetOf_of_calls Call.symbols_false_subset
  initial := rfl
  finals := rfl
  transitions := rfl

end

end Draft

namespace Builder

/-- A builder that infers declarations builds a draft that names nothing
undeclared. It validates under lenient rules unless it is deterministic and
its edges split. Without inference the same calls build the same draft with
fewer declarations. -/
theorem inferred_declarations_are_complete {kind : Kind} {calls : List Call} {b : Builder}
    (h : (performAll calls).run (start kind true) = .ok () b) (hinitial : calls.flatMap Call.initials ≠ [])
    (hreserved : ∀ a ∈ calls.flatMap Call.givenSymbols, (a == epsilon) = false) :
    ∃ d, b.build = .ok d ∧
      (∀ strict failFast, ∃ r, d.validate strict failFast = .ok r ∧
        ∀ i ∈ r.issues, i.code ≠ .reservedSymbol ∧ i.code ≠ .undeclaredReference) ∧
      (∀ failFast, (∃ A, d.Yields false failFast A) ↔ ¬ (d.kind = .dfa ∧ Splits (calls.flatMap Call.edges))) ∧
      ∃ b₀ d₀, (performAll calls).run (start kind false) = .ok () b₀ ∧ b₀.build = .ok d₀ ∧ d₀.DeclaresLess d := by
  obtain ⟨hfit, rfl⟩ := performAll_eq_ok_iff.mp h
  obtain ⟨q, hq⟩ := Option.ne_none_iff_exists'.mp (mt List.getLast?_eq_none_iff.mp hinitial)
  have hmem := List.mem_of_getLast? hq
  have hhash : q.isHashable = true := by
    obtain ⟨c, hc, hqc⟩ := List.mem_flatMap.mp hmem
    exact (hfit c hc).states q (List.mem_append_right _ (List.mem_append_left _ (List.mem_append_left _ hqc)))
  have hfixed := Value.isMutable_of_isHashable hhash
  have hall : (Draft.ofCalls kind true calls q).DeclaresAll := Draft.declaresAll_ofCalls hmem hreserved
  have hashable : (Draft.ofCalls kind true calls q).isHashable = true := Draft.isHashable_ofCalls hfit hhash
  refine ⟨_, build_after hq hfixed, hall.validate_eq_ok hashable, fun failFast => ?_, ?_⟩
  · rw [hall.exists_yields_lenient_iff hashable]
    exact not_congr (and_congr_right fun _ => splits_eraseDups_iff)
  · have hplain : (performAll calls).run (start kind false) = .ok () ((start kind false).after calls) :=
      performAll_eq_ok_iff.mpr ⟨fun c hc => (hfit c hc).without_inference, rfl⟩
    exact ⟨_, _, hplain, build_after hq hfixed, Draft.declaresLess_ofCalls⟩

theorem inferred_declarations_are_complete_mixed : mixed.flatMap Call.initials ≠ [] ∧
    (∀ a ∈ mixed.flatMap Call.givenSymbols, (a == epsilon) = false) ∧
    ∃ b d A, (performAll mixed).run (start .dfa true) = .ok () b ∧ b.build = .ok d ∧ d.Yields false true A := by
  have hrun : (performAll mixed).run (start .dfa true) = .ok () ((start .dfa true).after mixed) := rfl
  have hinitial : mixed.flatMap Call.initials ≠ [] := List.cons_ne_nil _ _
  have hreserved : ∀ a ∈ mixed.flatMap Call.givenSymbols, (a == epsilon) = false := List.forall_mem_nil _
  obtain ⟨d, hd, -, hvalid, -⟩ := inferred_declarations_are_complete hrun hinitial hreserved
  have hkind : d.kind = .epsilonNfa := by cases hd; rfl
  obtain ⟨A, hA⟩ := (hvalid true).mpr fun ⟨hdfa, _⟩ => by rw [hkind] at hdfa; cases hdfa
  exact ⟨hinitial, hreserved, _, d, A, hrun, hd, hA⟩

end Builder

end FiniteAutomata
