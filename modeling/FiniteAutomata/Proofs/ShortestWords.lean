import FiniteAutomata.Proofs.Emptiness
import FiniteAutomata.Proofs.WordOrder
import Mathlib.Data.List.Pairwise

/-!
# The shortest accepted word

The search for an accepted word looks at configurations in the order of the
words that lead to them, and comes to each of them by its least word
(`exists_reached_le`). So the word it gives is the least one over the alphabet
that is accepted, and there is only one such word
(`shortestAccepted?_eq_some_iff`). All other accepted words, whatever their
symbols, are longer or come behind it (`IsLeastAccepted.eq_or_earlier`).
-/

namespace FiniteAutomata

theorem IsDistinct.eq_of_idxOf_eq {xs : List Value} (h : IsDistinct xs) {a b : Value} (ha : a ∈ xs) (hb : b ∈ xs)
    (heq : xs.idxOf a = xs.idxOf b) : a = b := by
  have hne : xs.Pairwise fun a b => xs.idxOf a ≠ xs.idxOf b := h.pairwise_idxOf.imp fun hlt => hlt.ne
  have hsymm : Std.Symm fun a b => xs.idxOf a ≠ xs.idxOf b := ⟨fun _ _ hxy => hxy.symm⟩
  by_contra hab
  exact hne.forall ha hb hab heq

namespace Automaton

variable {A : Automaton}

theorem eq_of_wordRank_eq {v w : List Value} (hv : A.IsOverAlphabet v) (hw : A.IsOverAlphabet w)
    (h : A.wordRank v = A.wordRank w) : v = w := by
  have hpositions : v.map A.symbols.idxOf = w.map A.symbols.idxOf := congrArg Prod.snd (toLex.injective h)
  clear h
  induction v generalizing w with
  | nil => exact (List.map_eq_nil_iff.mp hpositions.symm).symm
  | cons a v ih =>
    cases w with
    | nil => cases hpositions
    | cons b w =>
      obtain ⟨ha, hv⟩ := List.forall_mem_cons.mp hv
      obtain ⟨hb, hw⟩ := List.forall_mem_cons.mp hw
      rw [List.map_cons, List.map_cons, List.cons.injEq] at hpositions
      have hab := A.isDistinct_symbols.eq_of_idxOf_eq (mem_canonicalOrder.mpr ha) (mem_canonicalOrder.mpr hb)
        hpositions.1
      rw [hab, ih hv hw hpositions.2]

/-- An accepted word over the alphabet such that no earlier one is
accepted. -/
structure IsLeastAccepted (A : Automaton) (w : List Value) : Prop where
  overAlphabet : A.IsOverAlphabet w
  accepts : A.Accepts w
  least : ∀ v, A.IsOverAlphabet v → A.Accepts v → ¬ A.Earlier v w

theorem IsLeastAccepted.unique {v w : List Value} (hv : A.IsLeastAccepted v) (hw : A.IsLeastAccepted w) : v = w := by
  refine eq_of_wordRank_eq hv.overAlphabet hw.overAlphabet (le_antisymm ?_ ?_)
  · rw [← not_lt, ← earlier_iff]
    exact hv.least w hw.overAlphabet hw.accepts
  · rw [← not_lt, ← earlier_iff]
    exact hw.least v hv.overAlphabet hv.accepts

/-! ## What the search comes to -/

theorem layered_successorsOfReached (A : Automaton) : Layered A.successorsOfReached fun r => A.wordRank r.word := by
  refine layered_symbols (fun _ => rfl) fun r a r' h => ?_
  dsimp only at h
  split at h
  · cases h
  · cases h; rfl

theorem pairwise_reached (A : Automaton) : A.reached.Pairwise fun r s => A.wordRank r.word < A.wordRank s.word :=
  pairwise_explore A.layered_successorsOfReached _ _

theorem exists_reached_le {w : List Value} (hw : A.IsOverAlphabet w) (hne : (A.configuration w).isEmpty = false) :
    ∃ r ∈ A.reached, SameSet (A.configuration w) r.configuration ∧ A.wordRank r.word ≤ A.wordRank w := by
  have hstart : A.reachedSupply.contains ⟨A.initialConfiguration, []⟩ = true :=
    contains_reachedSupply isStateSet_initialConfiguration
  have hcongr : ∀ r r', (r == r') = true → A.wordRank r'.word ≤ A.wordRank r.word →
      ∀ s ∈ A.successorsOfReached r, ∃ s' ∈ A.successorsOfReached r', (s == s') = true ∧
        A.wordRank s'.word ≤ A.wordRank s.word := by
    intro r r' hrr hle s hs
    obtain ⟨a, ha, hne, rfl⟩ := mem_successorsOfReached.mp hs
    have hstep : SameSet (A.step r.configuration a) (A.step r'.configuration a) :=
      sameSet_step (reached_beq_iff.mp hrr) BEq.rfl
    rw [hstep.isEmpty_eq] at hne
    exact ⟨_, mem_successorsOfReached.mpr ⟨a, ha, hne, rfl⟩, reached_beq_iff.mpr hstep, wordRank_concat_le hle a⟩
  obtain ⟨r, hr, hsame, hle⟩ := exists_explore_le_of_reaches A.layered_successorsOfReached hcongr
    (fun _ _ _ hs => contains_reachedSupply_of_mem hs) hstart A.length_reachedSupply_le (reaches_configuration hw hne)
  exact ⟨r, hr, reached_beq_iff.mp hsame, hle⟩

/-! ## What the search gives -/

theorem isLeastAccepted_of_eq_some {w : List Value} (h : A.shortestAccepted? = some w) : A.IsLeastAccepted w := by
  rw [shortestAccepted?_eq, Option.map_eq_some_iff] at h
  obtain ⟨r, hr, rfl⟩ := h
  obtain ⟨haccepting, before, after, hreached, hbefore⟩ := List.find?_eq_some_iff_append.mp hr
  obtain ⟨hw, hconfiguration⟩ := spec_of_reaches (reaches_of_mem_explore (List.mem_of_find?_eq_some hr))
  refine ⟨hw, ?_, fun v hv haccepts hearlier => ?_⟩
  · rw [accepts_iff hw.isHashable, ← hconfiguration]
    exact haccepting
  · rw [accepts_iff hv.isHashable] at haccepts
    obtain ⟨s, hs, hsame, hle⟩ := exists_reached_le hv (isEmpty_eq_false_of_meets haccepts)
    have hlt : A.wordRank s.word < A.wordRank r.word := lt_of_le_of_lt hle (earlier_iff.mp hearlier)
    -- what ranks below the result has been looked at before it, and was not accepting
    have hrising := A.pairwise_reached
    rw [hreached] at hs hrising
    obtain ⟨_, hrest, _⟩ := List.pairwise_append.mp hrising
    rcases List.mem_append.mp hs with hs | hs
    · have hnot := hbefore s hs
      unfold isAccepting at hnot
      rw [← hsame.meets_eq, haccepts] at hnot
      cases hnot
    · rcases List.mem_cons.mp hs with rfl | hs
      · exact lt_irrefl _ hlt
      · exact lt_asymm hlt ((List.pairwise_cons.mp hrest).1 s hs)

theorem shortestAccepted?_eq_some_iff {w : List Value} : A.shortestAccepted? = some w ↔ A.IsLeastAccepted w := by
  refine ⟨isLeastAccepted_of_eq_some, fun hw => ?_⟩
  cases h : A.shortestAccepted? with
  | none => exact absurd hw.accepts (shortestAccepted?_eq_none_iff.mp h w)
  | some v => rw [(isLeastAccepted_of_eq_some h).unique hw]

/-! ## Among all accepted words -/

theorem IsLeastAccepted.eq_or_earlier {v w : List Value} (hw : A.IsLeastAccepted w) (hv : A.Accepts v) :
    (v == w) = true ∨ A.Earlier w v := by
  obtain ⟨v', hv', hbeq, hm⟩ := exists_isOverAlphabet_of_accepts hv
  have hle : A.wordRank w ≤ A.wordRank v' := by
    rw [← not_lt, ← earlier_iff]
    exact hw.least v' hv' ((accepts_iff hv'.isHashable).mpr hm)
  rcases lt_or_eq_of_le hle with hlt | heq
  · right
    rw [earlier_iff, wordRank_congr hbeq]
    exact hlt
  · left
    rw [eq_of_wordRank_eq hw.overAlphabet hv' heq]
    exact hbeq

theorem IsLeastAccepted.length_le {v w : List Value} (hw : A.IsLeastAccepted w) (hv : A.Accepts v) :
    w.length ≤ v.length := by
  rw [← length_positions (A := A) w, ← length_positions (A := A) v]
  rcases hw.eq_or_earlier hv with hbeq | hearlier
  · rw [positions_congr hbeq]
  · rcases List.shortlex_def.mp hearlier with hlt | ⟨heq, -⟩
    · exact hlt.le
    · exact heq.le

theorem IsLeastAccepted.lex_of_length_eq {v w : List Value} (hw : A.IsLeastAccepted w) (hv : A.Accepts v)
    (hlength : v.length = w.length) : (v == w) = true ∨ List.Lex (· < ·) (A.positions w) (A.positions v) := by
  rcases hw.eq_or_earlier hv with hbeq | hearlier
  · exact Or.inl hbeq
  · right
    apply (List.shortlex_iff_lex _).mp hearlier
    rw [length_positions, length_positions, hlength]

/-- If some word over the alphabet is accepted, the search gives one that is.
No accepted word is shorter, and any other one of the same length comes behind
it when symbols are compared by their places in the canonical order of the
alphabet. It gives none exactly when no such word is accepted. -/
theorem shortestAccepted?_is_shortlex_least (A : Automaton) :
    ((∃ w, A.IsOverAlphabet w ∧ A.Accepts w) →
      ∃ w, A.shortestAccepted? = some w ∧ A.IsOverAlphabet w ∧ A.Accepts w ∧
        ∀ v, A.Accepts v → w.length ≤ v.length ∧
          (v.length = w.length → (v == w) = true ∨ List.Lex (· < ·) (A.positions w) (A.positions v))) ∧
    (A.shortestAccepted? = none ↔ ∀ w, A.IsOverAlphabet w → ¬ A.Accepts w) := by
  constructor
  · intro ⟨u, _, hu⟩
    cases h : A.shortestAccepted? with
    | none => exact absurd hu (shortestAccepted?_eq_none_iff.mp h u)
    | some w =>
      have hw := isLeastAccepted_of_eq_some h
      refine ⟨w, rfl, hw.overAlphabet, hw.accepts, ?_⟩
      intro v hv
      exact ⟨hw.length_le hv, hw.lex_of_length_eq hv⟩
  · rw [shortestAccepted?_eq_none_iff]
    constructor
    · intro hnone w _
      exact hnone w
    · intro hnone w hw
      obtain ⟨w', hw', _, hm⟩ := exists_isOverAlphabet_of_accepts hw
      exact hnone w' hw' ((accepts_iff hw'.isHashable).mpr hm)

/-- Two words of one length are accepted, and the alphabet lists the symbol of
the later one first. -/
def twoWays : Automaton :=
  .ofDraft ⟨.nfa, [.int 0, .int 1], [.text "b", .text "a"], .int 0, [.int 1],
    [⟨.int 0, .text "b", .int 1⟩, ⟨.int 0, .text "a", .bool true⟩]⟩
    (by decide +kernel) (by decide +kernel)

theorem shortestAccepted?_is_shortlex_least_twoWays : twoWays.Accepts [.text "b"] ∧
    ∃ w, twoWays.shortestAccepted? = some w ∧ (w == [.text "a"]) = true ∧ twoWays.Accepts w ∧
      ∀ v, twoWays.Accepts v → 1 ≤ v.length := by
  have hover : twoWays.IsOverAlphabet [.text "b"] := by
    intro a ha
    rw [List.mem_singleton.mp ha]
    exact List.mem_cons_self
  have haccepts : twoWays.Accepts [.text "b"] := by
    rw [accepts_iff hover.isHashable]
    decide +kernel
  obtain ⟨w, hw, _, hwaccepts, hleast⟩ := (shortestAccepted?_is_shortlex_least twoWays).1 ⟨_, hover, haccepts⟩
  have hfound : twoWays.shortestAccepted?.any (· == [.text "a"]) = true := by decide +kernel
  rw [hw] at hfound
  have hlength : w.length = 1 := by
    rw [← length_positions (A := twoWays) w, positions_congr hfound]; rfl
  refine ⟨haccepts, w, hw, hfound, hwaccepts, ?_⟩
  intro v hv
  rw [← hlength]
  exact (hleast v hv).1

end Automaton

end FiniteAutomata
