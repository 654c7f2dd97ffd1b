import FiniteAutomata.Proofs.Sampled.Edges
import FiniteAutomata.Proofs.Subsets.Drafts

/-!
# Sampled drafts

From axes that break no rule a draft can always be sampled, whatever is drawn,
and its features lie in the ranges of the axes (`gives_draft`). That makes it
well formed, so it validates (`draft_respects_axes`).
-/

namespace FiniteAutomata

def lowercase : List Char := "abcdefghijklmnopqrstuvwxyz".toList

def numbered (n : Nat) : List Value := (List.range n).map fun i : Nat => .int i

def firstLetters (m : Nat) : List Value := (lowercase.take m).map fun c => .text (String.singleton c)

/-- The features of the draft lie in the ranges of the axes. -/
structure Axes.Admits (x : Axes) (d : Draft) : Prop where
  kind : d.kind ∈ x.kinds
  states : ∃ n : Nat, x.states.1 ≤ n ∧ n ≤ x.states.2 ∧ d.states = numbered n
  alphabet : ∃ m : Nat, x.alphabet.1 ≤ m ∧ m ≤ x.alphabet.2 ∧ d.alphabet = firstLetters m
  initial : d.initial = .int 0
  finals : ∃ ks : List Nat, ks ≠ [] ∧ ks.Pairwise (· < ·) ∧ d.finals = ks.map (fun k : Nat => .int k) ∧
    ∀ q ∈ d.finals, q ∈ d.states
  outgoing : d.kind ≠ .dfa → ∀ q ∈ d.states,
    x.transitions.1 ≤ (d.outgoing q).length ∧ (d.outgoing q).length ≤ x.transitions.2
  declared : ∀ t ∈ d.transitions, t.source ∈ d.states ∧ t.target ∈ d.states ∧
    (t.isEpsilon = false → t.symbol ∈ d.alphabet)
  silent : ∀ t ∈ d.transitions, t.isEpsilon = true → d.kind = .epsilonNfa
  allSilent : d.kind = .epsilonNfa → x.epsilon.1.same (.finite 1) = true → x.epsilon.2.same (.finite 1) = true →
    ∀ t ∈ d.transitions, t.isEpsilon = true
  noneSilent : x.epsilon.1.same (.finite 0) = true → x.epsilon.2.same (.finite 0) = true →
    ∀ t ∈ d.transitions, t.isEpsilon = false
  deterministic : d.kind = .dfa → IsDistinct (d.transitions.map Transition.key)

/-! ## Labels -/

section
variable {n m : Nat}

theorem numbered_ne_nil (h : 0 < n) : numbered n ≠ [] := by
  rw [numbered, Ne, List.map_eq_nil_iff, List.range_eq_nil]
  omega

theorem isHashable_of_mem_numbered {q : Value} (h : q ∈ numbered n) : q.isHashable = true := by
  obtain ⟨i, _, rfl⟩ := List.mem_map.mp h
  rfl

theorem isDistinct_numbered (n : Nat) : IsDistinct (numbered n) := by
  rw [IsDistinct, numbered, List.pairwise_map]
  apply List.pairwise_lt_range.imp
  intro i j hij
  rw [Bool.eq_false_iff]
  intro h
  rw [Value.beq_iff_key] at h
  simp [Value.key] at h
  omega

theorem text_singleton_beq_iff {b c : Char} :
    (Value.text (String.singleton b) == .text (String.singleton c)) = true ↔ b = c := by
  rw [Value.beq_text_iff, Value.text.injEq, String.singleton_inj]

theorem firstLetters_ne_nil (h : 0 < m) : firstLetters m ≠ [] := by
  have hne : lowercase ≠ [] := by decide
  rw [firstLetters, Ne, List.map_eq_nil_iff, List.take_eq_nil_iff]
  rintro (hm | hnil)
  · omega
  · exact hne hnil

theorem isHashable_of_mem_firstLetters {a : Value} (h : a ∈ firstLetters m) : a.isHashable = true := by
  obtain ⟨c, _, rfl⟩ := List.mem_map.mp h
  rfl

theorem isDistinct_firstLetters (m : Nat) : IsDistinct (firstLetters m) := by
  have hnodup : lowercase.Nodup := by decide
  rw [IsDistinct, firstLetters, List.pairwise_map]
  apply (hnodup.sublist (List.take_sublist m _)).imp
  intro b c hne
  rw [Bool.eq_false_iff]
  exact fun h => hne (text_singleton_beq_iff.mp h)

theorem beq_epsilon_of_mem_firstLetters {a : Value} (h : a ∈ firstLetters m) : (a == epsilon) = false := by
  have hnot : ¬ 'ε' ∈ lowercase := by decide
  obtain ⟨c, hc, rfl⟩ := List.mem_map.mp h
  rw [Bool.eq_false_iff]
  intro heq
  have hc' : c = 'ε' := text_singleton_beq_iff.mp heq
  rw [hc'] at hc
  exact hnot (List.mem_of_mem_take hc)

end

/-! ## The whole draft -/

namespace Sampling

variable {x : Axes}

theorem letters_eq {n : Int} (h : n ≤ Axes.maxAlphabet) : (letters n).map Value.text = firstLetters n.toNat := by
  have hlowercase : lowercase = (List.range Axes.maxAlphabet).map fun i => Char.ofNat (97 + i) := by rfl
  have hmin : min n.toNat Axes.maxAlphabet = n.toNat := by omega
  rw [firstLetters, hlowercase, ← List.map_take, List.take_range, hmin]
  simp [letters, letter, Function.comp_def]

theorem finals_of_sublist {finals : List Value} {n : Nat} (hne : finals ≠ []) (h : finals.Sublist (numbered n)) :
    ∃ ks : List Nat, ks ≠ [] ∧ ks.Pairwise (· < ·) ∧ finals = ks.map fun k : Nat => .int k := by
  obtain ⟨ks, hks, rfl⟩ := List.sublist_map_iff.mp h
  refine ⟨ks, ?_, List.pairwise_lt_range.sublist hks, rfl⟩
  rintro rfl
  exact hne rfl

/-- A draft can be sampled from sound axes, whatever is drawn, and the axes
admit it. -/
theorem gives_draft (hx : x.Sound) : (draft x).Gives fun s => x.Admits s.draft := by
  -- the draws in the order in which they are taken
  refine (gives_choose hx.kinds).bind fun kind hkind => ?_
  refine (gives_intRange hx.states.2).bind fun n hn => ?_
  refine (gives_intRange hx.alphabet.2.1).bind fun m hm => ?_
  refine (gives_probability hx.epsilon).bind fun p hp => ?_
  refine (gives_probability hx.final).bind fun r _ => ?_
  have hn' := hx.states.1
  have hm' := hx.alphabet
  have hletters := letters_eq (n := m) (by omega)
  have hstates : stateLabels n ≠ [] := numbered_ne_nil (by omega)
  have halphabet : (letters m).map Value.text ≠ [] := by
    rw [hletters]
    exact firstLetters_ne_nil (by omega)
  have hdistinct : IsDistinct ((letters m).map Value.text) := by
    rw [hletters]
    exact isDistinct_firstLetters _
  have hreserved : ∀ a ∈ (letters m).map Value.text, (a == FiniteAutomata.epsilon) = false := by
    rw [hletters]
    exact fun a => beq_epsilon_of_mem_firstLetters
  refine (gives_finalStates r hstates).bind fun finals ⟨hne, hsub⟩ => ?_
  refine (gives_allEdges hstates halphabet hx.transitions.1 hx.transitions.2 (isDistinct_numbered _) hdistinct).bind
    fun ts ⟨hdrawn, hbounds, hkeys⟩ => gives_pure ?_
  obtain ⟨ks, hks, hsorted, hfinals⟩ := finals_of_sublist hne hsub
  exact {
    kind := hkind
    states := ⟨n.toNat, by omega, by omega, rfl⟩
    alphabet := ⟨m.toNat, by omega, by omega, hletters⟩
    initial := rfl
    finals := ⟨ks, hks, hsorted, hfinals, fun q hq => hsub.subset hq⟩
    outgoing := hbounds
    declared := fun t ht =>
      ⟨(hdrawn t ht).1, (hdrawn t ht).2.target, fun he => ((hdrawn t ht).2.symbol.read_of_beq he).1⟩
    silent := fun t ht he => ((hdrawn t ht).2.symbol.silent_of_beq hreserved he).1
    allSilent := by
      intro hk hlow hhigh t ht
      rw [← Bool.not_eq_false]
      intro he
      have hone := ((hdrawn t ht).2.symbol.read_of_beq he).2 hk
      rw [hp 1 hlow hhigh] at hone
      cases hone
    noneSilent := by
      intro hlow hhigh t ht
      rw [Bool.eq_false_iff]
      intro he
      have hzero := ((hdrawn t ht).2.symbol.silent_of_beq hreserved he).2
      rw [hp 0 hlow hhigh] at hzero
      cases hzero
    deterministic := hkeys }

end Sampling

/-! ## Validation -/

namespace Axes.Admits

variable {x : Axes} {d : Draft} (h : x.Admits d)
include h

theorem isHashable : d.isHashable = true := by
  obtain ⟨n, _, _, hstates⟩ := h.states
  obtain ⟨m, _, _, halphabet⟩ := h.alphabet
  have hstate : ∀ q ∈ d.states, q.isHashable = true := by
    rw [hstates]
    exact fun q => isHashable_of_mem_numbered
  have hsymbol : ∀ a ∈ d.alphabet, a.isHashable = true := by
    rw [halphabet]
    exact fun a => isHashable_of_mem_firstLetters
  refine List.all_eq_true.mpr (Draft.forall_labels.mpr ⟨hstate, hsymbol, ?_, ?_, ?_⟩)
  · rw [h.initial]; rfl
  · intro q hq
    obtain ⟨_, _, _, _, hfinals⟩ := h.finals
    exact hstate q (hfinals q hq)
  · intro t ht
    obtain ⟨hsource, htarget, hread⟩ := h.declared t ht
    refine ⟨hstate _ hsource, ?_, hstate _ htarget⟩
    by_cases he : t.isEpsilon = true
    · rw [Value.beq_text_iff.mp he]; rfl
    · exact hsymbol _ (hread (by simpa using he))

theorem wellFormed (hx : x.Sound) : d.WellFormed where
  reserved := by
    obtain ⟨m, _, _, halphabet⟩ := h.alphabet
    rw [halphabet, List.contains_eq_any_beq, List.any_eq_false]
    intro a ha
    simp [BEq.comm (a := FiniteAutomata.epsilon), beq_epsilon_of_mem_firstLetters ha]
  initial := by
    obtain ⟨n, hlow, _, hstates⟩ := h.states
    have hpos := hx.states.1
    rw [hstates, h.initial]
    exact contains_of_mem (List.mem_map.mpr ⟨0, List.mem_range.mpr (by omega), rfl⟩)
  finals := by
    obtain ⟨_, _, _, _, hfinals⟩ := h.finals
    exact fun q hq => contains_of_mem (hfinals q hq)
  source t ht := contains_of_mem (h.declared t ht).1
  target t ht := contains_of_mem (h.declared t ht).2.1
  symbol := by
    intro t ht
    unfold Draft.Allows
    by_cases he : t.isEpsilon = true
    · rw [if_pos he]
      exact h.silent t ht he
    · rw [if_neg he]
      exact contains_of_mem ((h.declared t ht).2.2 (by simpa using he))
  deterministic := by
    intro hk t ht u hu hsource hsymbol
    rw [(h.deterministic hk).eq_of_map_beq ht hu (by simp [Transition.key_beq, hsource, hsymbol])]
    exact BEq.rfl

end Axes.Admits

/-- Whatever is drawn, sampling from axes that could be read ends in a draft
with features from their ranges, and the check of the draft gives an automaton
and tells no errors. -/
theorem draft_respects_axes {v : Value} {x : Axes} (h : Axes.read v = .ok x) : (Sampling.draft x).Gives fun s =>
    x.Admits s.draft ∧ ∀ failFast, ∃ r A, s.draft.validate false failFast = .ok r ∧ r.automaton? = some A ∧
      A.draft = s.draft ∧ ∀ i ∈ r.issues, i.isError = false := by
  have hx := Axes.sound_of_read h
  refine (Sampling.gives_draft hx).mono fun s hs => ⟨hs, fun failFast => ?_⟩
  obtain ⟨A, r, hr, hA⟩ := Draft.exists_yields_iff.mpr
    ⟨hs.isHashable, hs.wellFormed hx, fun (hstrict : false = true) => by cases hstrict⟩
  obtain ⟨_, hwarnings⟩ := Draft.warnings_of_validate hr hA
  refine ⟨r, A, hr, hA, Draft.draft_of_validate hr hA, fun i hi => ?_⟩
  have hwarning := hwarnings i hi
  rw [Issue.isWarning_eq_not_isError] at hwarning
  simpa using hwarning

/-- All edges are silent, and since no state is drawn to be final one is
picked. -/
def silentAxes : Axes :=
  ⟨[.epsilonNfa], (2, 2), (1, 1), (1, 2), (.finite 1, .finite 1), (.negativeZero, .finite 0)⟩

def silentRecord : Value := .record
  [(.text "kinds", .list [.text "epsilon_nfa"]), (.text "n_states_range", .list [.int 2, .int 2]),
    (.text "alphabet_size_range", .tuple [.int 1, .int 1]), (.text "transitions_per_state_range", .list [.int 1, .int 2]),
    (.text "epsilon_prob_range", .list [.float (.finite 1), .float (.finite 1)]),
    (.text "final_prob_range", .list [.float .negativeZero, .float (.finite 0)])]

theorem draft_respects_axes_silentAxes : Axes.read silentRecord = .ok silentAxes ∧ ∃ s rest,
    (Sampling.draft silentAxes).run.run (.cyclic [3, 5]) = (.ok s, rest) ∧ silentAxes.Admits s.draft ∧
      (∀ t ∈ s.draft.transitions, t.isEpsilon = true) ∧
      ∃ r A, s.draft.validate false true = .ok r ∧ r.automaton? = some A := by
  have hread : Axes.read silentRecord = .ok silentAxes := rfl
  obtain ⟨s, rest, hrun, hadmits, hvalid⟩ := draft_respects_axes hread (.cyclic [3, 5])
  obtain ⟨r, A, hr, hA, _⟩ := hvalid true
  have hkind : s.draft.kind = .epsilonNfa := List.mem_singleton.mp hadmits.kind
  exact ⟨hread, s, rest, hrun, hadmits, hadmits.allSilent hkind rfl rfl, r, A, hr, hA⟩

end FiniteAutomata
