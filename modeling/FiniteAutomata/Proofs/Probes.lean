import FiniteAutomata.Proofs.CanonicalOrder
import FiniteAutomata.Proofs.DeadSymbols
import FiniteAutomata.Proofs.Draws

/-!
# Probes

Under each tag stand the words that are added under it, once each
(`taggedWords_probesFrom`), with the verdicts of their runs. So what holds of
the words holds of the probes, whatever is drawn (`probes_are_labelled`).
Adversarial ones are there when some symbol kills every branch behind the
shortest accepted word, unless the first such symbol is `null`
(`adversarial_probes_exact`).
-/

namespace FiniteAutomata

open Sampling

/-- What tells one probe from another. -/
def Probe.key (p : Probe) : Tag × Word := (p.tag, p.word)

def taggedWords (tag : Tag) (probes : List Probe) : List Word := (probes.filter fun p => p.tag = tag).map Probe.word

theorem mem_taggedWords {tag : Tag} {probes : List Probe} {w : Word} :
    w ∈ taggedWords tag probes ↔ ∃ p ∈ probes, p.tag = tag ∧ p.word = w := by
  simp [taggedWords, and_assoc]

theorem exists_tag_iff {tag : Tag} {probes : List Probe} :
    (∃ p ∈ probes, p.tag = tag) ↔ taggedWords tag probes ≠ [] := by
  simp [taggedWords]

theorem isDistinct_cons_longer {w : Word} {extend : Value → Word} (h : ∀ a, w.length < (extend a).length)
    (a? : Option Value) : IsDistinct (w :: a?.toList.map extend) := by
  cases a? with
  | none => exact List.pairwise_singleton _ _
  | some a => exact List.pairwise_pair.mpr (Bool.eq_false_iff.mpr fun hbeq => (h a).ne (list_beq_length hbeq))

namespace Automaton

variable {A : Automaton}

/-! ## Adding probes -/

theorem any_key_eq (tag : Tag) (probes : List Probe) (w : Word) :
    (probes.any fun p => p.tag = tag && p.word == w) = (probes.map Probe.key).contains (tag, w) := by
  rw [List.contains_eq_any_beq, List.any_map]
  congr 1
  funext p
  have hcomm : ((tag, w) == p.key) = (p.key == (tag, w)) := BEq.comm
  rw [Function.comp_apply, hcomm]; rfl

theorem map_key_addProbe (A : Automaton) (tag : Tag) (probes : List Probe) (w : Word) :
    (A.addProbe tag probes w).map Probe.key = adjoin (probes.map Probe.key) (tag, w) := by
  unfold addProbe adjoin
  rw [any_key_eq]
  split
  · rfl
  · rw [List.map_append]; rfl

theorem isDistinct_addProbes {tag : Tag} {words : List Word} {probes : List Probe}
    (h : IsDistinct (probes.map Probe.key)) : IsDistinct ((A.addProbes tag words probes).map Probe.key) := by
  unfold addProbes
  induction words generalizing probes with
  | nil => exact h
  | cons w words ih =>
    apply ih
    rw [map_key_addProbe]
    exact h.adjoin _

theorem verdict_of_mem_addProbes {tag : Tag} {words : List Word} {probes : List Probe}
    (h : ∀ p ∈ probes, p.verdict = A.verdict p.word) :
    ∀ p ∈ A.addProbes tag words probes, p.verdict = A.verdict p.word := by
  unfold addProbes
  induction words generalizing probes with
  | nil => exact h
  | cons w words ih =>
    apply ih
    intro p hp
    unfold addProbe at hp
    split at hp
    · exact h p hp
    · rcases List.mem_append.mp hp with hp | hp
      · exact h p hp
      · rw [List.mem_singleton.mp hp]

theorem taggedWords_addProbe (A : Automaton) (tag tag' : Tag) (probes : List Probe) (w : Word) :
    taggedWords tag (A.addProbe tag' probes w) =
      if tag' = tag then adjoin (taggedWords tag probes) w else taggedWords tag probes := by
  have hany : (taggedWords tag probes).contains w = probes.any fun p => p.tag = tag && p.word == w := by
    simp [taggedWords, List.contains_eq_any_beq, List.any_map, List.any_filter, BEq.comm]
  unfold addProbe adjoin
  by_cases htag : tag' = tag
  · subst htag
    rw [if_pos rfl, hany]
    split
    · rfl
    · simp [taggedWords]
  · rw [if_neg htag]
    split
    · rfl
    · simp [taggedWords, htag]

theorem taggedWords_addProbes (A : Automaton) (tag tag' : Tag) (words : List Word) (probes : List Probe) :
    taggedWords tag (A.addProbes tag' words probes) =
      if tag' = tag then adjoinAll (taggedWords tag probes) words else taggedWords tag probes := by
  unfold addProbes
  induction words generalizing probes with
  | nil => simp [adjoinAll_nil]
  | cons w words ih =>
    rw [List.foldl_cons, ih, taggedWords_addProbe]
    split <;> rfl

/-! ## Words under each tag -/

def wordsFor (A : Automaton) (typical : List Word) : Tag → List Word
  | .coverage => A.coverageWords
  | .boundary => A.boundaryWords
  | .typical => typical
  | .adversarial => A.adversarialWords

theorem taggedWords_probesFrom (A : Automaton) (typical : List Word) (tag : Tag) :
    taggedWords tag (A.probesFrom typical) = distinct (A.wordsFor typical tag) := by
  unfold probesFrom
  simp only [taggedWords_addProbes]
  cases tag <;> rfl

theorem taggedWords_of_isDistinct {typical : List Word} {tag : Tag} (h : IsDistinct (A.wordsFor typical tag)) :
    taggedWords tag (A.probesFrom typical) = A.wordsFor typical tag := by
  rw [taggedWords_probesFrom, h.distinct_eq]

theorem isDistinct_probesFrom (A : Automaton) (typical : List Word) :
    IsDistinct ((A.probesFrom typical).map Probe.key) :=
  isDistinct_addProbes (isDistinct_addProbes (isDistinct_addProbes (isDistinct_addProbes .nil)))

theorem verdict_of_mem_probesFrom {typical : List Word} :
    ∀ p ∈ A.probesFrom typical, p.verdict = A.verdict p.word :=
  verdict_of_mem_addProbes (verdict_of_mem_addProbes (verdict_of_mem_addProbes
    (verdict_of_mem_addProbes (List.forall_mem_nil _))))

theorem mem_wordsFor_of_mem_probesFrom {typical : List Word} {p : Probe} (h : p ∈ A.probesFrom typical) :
    p.word ∈ A.wordsFor typical p.tag := by
  apply mem_of_mem_distinct
  rw [← taggedWords_probesFrom]
  exact mem_taggedWords.mpr ⟨p, h, rfl, rfl⟩

theorem isDistinct_coverageWords (A : Automaton) : IsDistinct A.coverageWords := by
  refine List.pairwise_cons.mpr ⟨?_, List.pairwise_map.mpr ?_⟩
  · simp
  · simpa [IsDistinct] using A.isDistinct_symbols

theorem isDistinct_boundaryWords (A : Automaton) : IsDistinct A.boundaryWords := by
  unfold boundaryWords
  cases A.shortestAccepted? with
  | none => exact .nil
  | some w => exact isDistinct_cons_longer (by simp) _

theorem isDistinct_adversarialWords (A : Automaton) : IsDistinct A.adversarialWords := by
  unfold adversarialWords
  dsimp only
  cases A.deadSymbol? (A.shortestAccepted?.getD []) with
  | none => exact .nil
  | some a => exact isDistinct_cons_longer (by simp) _

theorem isOverAlphabet_of_mem_boundaryWords {w : Word} (h : w ∈ A.boundaryWords) : A.IsOverAlphabet w := by
  unfold boundaryWords at h
  cases hs : A.shortestAccepted? with
  | none => rw [hs] at h; cases h
  | some s =>
    have hs := (isLeastAccepted_of_eq_some hs).overAlphabet
    simp only [*, List.mem_cons, List.mem_map, Option.mem_toList] at h
    rcases h with rfl | ⟨a, ha, rfl⟩
    · exact hs
    · exact hs.concat (mem_canonicalOrder.mp (List.mem_of_getLast? ha))

theorem isOverAlphabet_of_mem_wordsFor {typical : List Word} (htypical : ∀ w ∈ typical, ∀ a ∈ w, a ∈ A.symbols)
    {tag : Tag} {w : Word} (h : w ∈ A.wordsFor typical tag) : A.IsOverAlphabet w := by
  cases tag with
  | coverage =>
    apply isOverAlphabet_of_forall_mem_symbols
    rcases List.mem_cons.mp h with rfl | h
    · simp
    · obtain ⟨a, ha, rfl⟩ := List.mem_map.mp h
      simpa using ha
  | boundary => exact isOverAlphabet_of_mem_boundaryWords h
  | typical => exact isOverAlphabet_of_forall_mem_symbols (htypical w h)
  | adversarial => exact isOverAlphabet_of_mem_adversarialWords h

/-! ## What is given -/

theorem typicalWords_zero (A : Automaton) (maxLength : Nat) : A.typicalWords maxLength 0 = pure [] := by
  unfold typicalWords
  split <;> rfl

theorem typicalWords_of_isEmpty (h : A.symbols.isEmpty = true) (maxLength count : Nat) :
    A.typicalWords maxLength count = pure [] := if_pos h

theorem probesOf_int (A : Automaton) {maxLength : Int} (h : 0 ≤ maxLength) (count : Int) :
    A.probesOf (.int maxLength) (.int count) = A.probes maxLength count := by
  have hlimit : (Number.int maxLength).lt (.int 0) = false := by
    rw [Number.lt_int]
    simpa using h
  -- without symbols, and where nothing is to be drawn, the bound is not looked at
  have hparts : A.probesOf (.int maxLength) (.int count) =
      if A.symbols.isEmpty then A.probes 0 0
      else if count ≤ 0 then A.probes 0 count else A.probes maxLength count := by
    unfold probesOf
    show (if (Number.int maxLength).lt (.int 0) then _ else _) = _
    rw [hlimit]; rfl
  rw [hparts, A.probes_eq h, A.probes_eq (Int.le_refl 0), A.probes_eq (Int.le_refl 0)]
  by_cases hsymbols : A.symbols.isEmpty = true
  · rw [if_pos hsymbols, typicalWords_of_isEmpty hsymbols, typicalWords_of_isEmpty hsymbols]
  · rw [if_neg hsymbols]
    by_cases hcount : count ≤ 0
    · rw [if_pos hcount, Int.toNat_of_nonpos hcount, typicalWords_zero, typicalWords_zero]
    · rw [if_neg hcount]

theorem gives_probesOf (A : Automaton) {maxLength : Int} (h : 0 ≤ maxLength) (count : Int) :
    (A.probesOf (.int maxLength) (.int count)).Gives fun probes => ∃ typical, probes = A.probesFrom typical ∧
      typical.length ≤ count.toNat ∧ ∀ w ∈ typical, w.length ≤ maxLength.toNat ∧ ∀ a ∈ w, a ∈ A.symbols := by
  rw [A.probesOf_int h]
  exact A.gives_probes h count

/-! ## The boundary -/

theorem exists_boundaryWords (h : ∃ w, A.Accepts w) : ∃ s, A.Accepts s ∧ (∀ v, A.Accepts v → s.length ≤ v.length) ∧
    A.boundaryWords = s :: A.symbols.getLast?.toList.map fun a => s ++ [a] := by
  obtain ⟨w, hw⟩ := h
  unfold boundaryWords
  cases hs : A.shortestAccepted? with
  | none => exact absurd hw (shortestAccepted?_eq_none_iff.mp hs w)
  | some s =>
    have hleast := isLeastAccepted_of_eq_some hs
    exact ⟨s, hleast.accepts, fun v => hleast.length_le, rfl⟩

theorem boundaryWords_eq_nil (h : ∀ w, ¬ A.Accepts w) : A.boundaryWords = [] := by
  unfold boundaryWords
  rw [shortestAccepted?_eq_none_iff.mpr h]

/-! ## Labels of probes -/

/-- Verdicts follow the paths of the draft, nothing is repeated, and the words
under each tag are of their kind. -/
structure AreLabelled (A : Automaton) (maxLength count : Int) (probes : List Probe) : Prop where
  overAlphabet : ∀ p ∈ probes, A.IsOverAlphabet p.word
  verdicts : ∀ p ∈ probes, (p.verdict = .accepted ↔ ∃ q, A.draft.Leads p.word q ∧ A.finals.contains q = true)
  once : IsDistinct (probes.map Probe.key)
  coverage : taggedWords .coverage probes = [] :: A.symbols.map fun a => [a]
  boundary : (∃ w, A.Accepts w) → ∃ s, A.Accepts s ∧ (∀ v, A.Accepts v → s.length ≤ v.length) ∧
    ⟨s, .accepted, .boundary⟩ ∈ probes ∧
    taggedWords .boundary probes = s :: A.symbols.getLast?.toList.map fun a => s ++ [a]
  noBoundary : (∀ w, ¬ A.Accepts w) → taggedWords .boundary probes = []
  typicalCount : (taggedWords .typical probes).length ≤ count.toNat
  typicalLength : ∀ w ∈ taggedWords .typical probes, w.length ≤ maxLength.toNat
  adversarial : ∀ p ∈ probes, p.tag = .adversarial → p.verdict = .rejected ∧
    ∀ v, ∃ o, (A.runNfa (p.word ++ v)).outcome = .ok o ∧ o.verdict = .rejected

section
variable {typical : List Word}

theorem mem_probesFrom_of_mem_taggedWords {tag : Tag} {w : Word} (h : w ∈ taggedWords tag (A.probesFrom typical)) :
    ⟨w, A.verdict w, tag⟩ ∈ A.probesFrom typical := by
  obtain ⟨p, hp, rfl, rfl⟩ := mem_taggedWords.mp h
  rw [← verdict_of_mem_probesFrom p hp]
  exact hp

theorem areLabelled_probesFrom {maxLength count : Int} (hcount : typical.length ≤ count.toNat)
    (htypical : ∀ w ∈ typical, w.length ≤ maxLength.toNat ∧ ∀ a ∈ w, a ∈ A.symbols) :
    A.AreLabelled maxLength count (A.probesFrom typical) := by
  have hover : ∀ p ∈ A.probesFrom typical, A.IsOverAlphabet p.word := fun p hp =>
    isOverAlphabet_of_mem_wordsFor (fun w hw => (htypical w hw).2) (mem_wordsFor_of_mem_probesFrom hp)
  have hboundary : taggedWords .boundary (A.probesFrom typical) = A.boundaryWords :=
    taggedWords_of_isDistinct A.isDistinct_boundaryWords
  have htyped : taggedWords .typical (A.probesFrom typical) = distinct typical :=
    taggedWords_probesFrom A typical .typical
  exact {
    overAlphabet := hover
    verdicts := fun p hp => by
      rw [verdict_of_mem_probesFrom p hp, verdict_eq_accepted_iff, accepts_iff_leads (hover p hp).isHashable]
    once := A.isDistinct_probesFrom typical
    coverage := taggedWords_of_isDistinct A.isDistinct_coverageWords
    boundary := fun haccepts => by
      obtain ⟨s, hs, hleast, hwords⟩ := exists_boundaryWords haccepts
      refine ⟨s, hs, hleast, ?_, hboundary.trans hwords⟩
      rw [← verdict_eq_accepted_iff.mpr hs]
      apply mem_probesFrom_of_mem_taggedWords
      simp [hboundary, hwords]
    noBoundary := fun hnone => hboundary.trans (boundaryWords_eq_nil hnone)
    typicalCount := by
      rw [htyped]
      have hshorter := (isDistinct_distinct typical).length_le fun w hw => contains_of_mem (mem_of_mem_distinct hw)
      exact hshorter.trans hcount
    typicalLength := fun w hw => by
      rw [htyped] at hw
      exact (htypical w (mem_of_mem_distinct hw)).1
    adversarial := fun p hp htag => by
      have hword := mem_wordsFor_of_mem_probesFrom hp
      rw [htag] at hword
      have hdead : (A.configuration p.word).isEmpty = true := by rw [configuration_of_mem_adversarialWords hword]; rfl
      rw [verdict_of_mem_probesFrom p hp]
      exact ⟨verdict_of_dead (hover p hp).isHashable hdead, rejects_extensions (hover p hp).isHashable hdead⟩ }

end

/-- Whatever is drawn, the probes are given, and they are labelled by what the
automaton does. -/
theorem probes_are_labelled (A : Automaton) (maxLength count : Int) (h : 0 ≤ maxLength) (source : Source) :
    ∃ probes rest, (A.probesOf (.int maxLength) (.int count)).run.run source = (.ok probes, rest) ∧
      A.AreLabelled maxLength count probes := by
  obtain ⟨_, rest, hrun, typical, rfl, hcount, htypical⟩ := A.gives_probesOf h count source
  exact ⟨_, rest, hrun, areLabelled_probesFrom hcount htypical⟩

theorem probes_are_labelled_twoWays : (0 : Int) ≤ 2 ∧ twoWays.Accepts [.text "b"] ∧
    ∃ probes rest, (twoWays.probesOf (.int 2) (.int 3)).run.run (.cyclic [5, 7]) = (.ok probes, rest) ∧
      ∃ p ∈ probes, p.tag = .boundary ∧ p.verdict = .accepted ∧ p.word.length ≤ 1 := by
  have h : (0 : Int) ≤ 2 := by decide
  have haccepts : twoWays.Accepts [.text "b"] := by
    rw [accepts_iff (by decide)]
    decide +kernel
  obtain ⟨probes, rest, hrun, hlabelled⟩ := probes_are_labelled twoWays 2 3 h (.cyclic [5, 7])
  obtain ⟨s, _, hleast, hs, _⟩ := hlabelled.boundary ⟨_, haccepts⟩
  exact ⟨h, haccepts, probes, rest, hrun, _, hs, rfl, rfl, hleast _ haccepts⟩

/-! ## Adversarial probes -/

/-- Adversarial probes are there exactly when some symbol kills after the
shortest accepted word, or after the empty one if none is accepted, and `null`
is not the first such symbol. They read the first such symbol behind that
word, and then no more or the first symbol of the alphabet. -/
theorem adversarial_probes_exact (A : Automaton) (maxLength count : Int) (h : 0 ≤ maxLength) (source : Source) :
    ∃ probes rest, (A.probesOf (.int maxLength) (.int count)).run.run source = (.ok probes, rest) ∧
      ((∃ p ∈ probes, p.tag = .adversarial) ↔
        (∃ a ∈ A.alphabet, A.Kills A.probedWord a) ∧ ¬ A.IsFirstKiller A.probedWord .null) ∧
      ∀ d, A.IsFirstKiller A.probedWord d → d ≠ .null → ∃ c, A.symbols.head? = some c ∧
        taggedWords .adversarial probes = [A.probedWord ++ [d], A.probedWord ++ [d, c]] := by
  obtain ⟨_, rest, hrun, typical, rfl, _⟩ := A.gives_probesOf h count source
  have hwords : taggedWords .adversarial (A.probesFrom typical) = A.adversarialWords :=
    taggedWords_of_isDistinct A.isDistinct_adversarialWords
  refine ⟨_, rest, hrun, ?_, fun d hd hne => ?_⟩
  · rw [exists_tag_iff, hwords, adversarialWords_ne_nil_iff, exists_deadSymbol?_iff]
  · rw [hwords]
    exact adversarialWords_of_isFirstKiller hd hne

theorem adversarial_probes_exact_twoWays : (0 : Int) ≤ 2 ∧ twoWays.IsFirstKiller twoWays.probedWord (.text "a") ∧
    ∃ probes rest, (twoWays.probesOf (.int 2) (.int 3)).run.run (.cyclic [5, 7]) = (.ok probes, rest) ∧
      taggedWords .adversarial probes = [[.text "a", .text "a"], [.text "a", .text "a", .text "a"]] := by
  have h : (0 : Int) ≤ 2 := by decide
  have hword : twoWays.probedWord = [.text "a"] := rfl
  have hsymbols : twoWays.symbols = [.text "a", .text "b"] := rfl
  have hfirst : twoWays.IsFirstKiller twoWays.probedWord (.text "a") := by
    refine ⟨?_, [], _, hsymbols, List.forall_mem_nil _⟩
    rw [hword]
    unfold Kills
    decide +kernel
  obtain ⟨probes, rest, hrun, _, hwords⟩ := adversarial_probes_exact twoWays 2 3 h (.cyclic [5, 7])
  refine ⟨h, hfirst, probes, rest, hrun, ?_⟩
  obtain ⟨c, hc, htagged⟩ := hwords _ hfirst nofun
  rw [hsymbols] at hc
  cases hc
  rw [htagged, hword]; rfl

/-- A final state without edges, and `null` as the only symbol. -/
def onlyNull : Automaton :=
  .ofDraft ⟨.dfa, [.int 0], [.null], .int 0, [.int 0], []⟩ (by decide +kernel) (by decide +kernel)

/-- A symbol kills, and there are no adversarial probes. -/
theorem no_adversarial_probes_onlyNull :
    onlyNull.probedWord = [] ∧ Value.null ∈ onlyNull.alphabet ∧ onlyNull.Kills [] .null ∧
      ∃ probes rest, (onlyNull.probesOf (.int 0) (.int 0)).run.run (.cyclic [0]) = (.ok probes, rest) ∧
        ∀ p ∈ probes, p.tag ≠ .adversarial := by
  have hkills : onlyNull.Kills [] .null := by
    unfold Kills
    decide +kernel
  obtain ⟨_, rest, hrun, typical, rfl, _⟩ := onlyNull.gives_probesOf (Int.le_refl 0) 0 (.cyclic [0])
  refine ⟨rfl, List.mem_singleton.mpr rfl, hkills, _, rest, hrun, fun p hp htag => ?_⟩
  have hword := mem_wordsFor_of_mem_probesFrom hp
  rw [htag] at hword
  have hnone : onlyNull.adversarialWords = [] := rfl
  rw [wordsFor, hnone] at hword
  cases hword

end Automaton

end FiniteAutomata
