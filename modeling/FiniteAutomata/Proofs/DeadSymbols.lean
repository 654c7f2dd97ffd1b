import FiniteAutomata.Proofs.ShortestWords

/-!
# Symbols that kill

A symbol kills after a word when no state is left of the configuration there.
A run that reads it is rejected, whatever follows (`rejects_extensions`). Of
the symbols that kill after the shortest accepted word the first one makes
adversarial words, but `null` is not told from there being none
(`exists_deadSymbol?_iff`).
-/

namespace FiniteAutomata

namespace Automaton

variable {A : Automaton}

/-! ## Verdicts -/

theorem verdict_eq_accepted_iff {w : Word} : A.verdict w = .accepted ↔ A.Accepts w := by
  unfold verdict Accepts
  cases (A.runNfa w).outcome with
  | error e => simp
  | ok o => simp

theorem accepts_iff_leads {w : Word} (hw : ∀ a ∈ w, a.isHashable = true) :
    A.Accepts w ↔ ∃ q, A.draft.Leads w q ∧ A.finals.contains q = true := by
  rw [accepts_iff hw, meets_iff_exists_contains]
  simp only [contains_configuration_iff]

/-- A run that no state is left in reads no further. -/
theorem runNfaFrom_append_of_dead {w qs : List Value} {n : Nat} (hne : qs.isEmpty = false) (hqs : A.IsStateSet qs)
    (hw : ∀ a ∈ w, a.isHashable = true) (hdead : (w.foldl A.step qs).isEmpty = true) (v : List Value) :
    ∃ o, (A.runNfaFrom qs n (w ++ v)).outcome = .ok o ∧ o.verdict = .rejected := by
  induction w generalizing qs n with
  | nil => rw [List.foldl_nil, hne] at hdead; cases hdead
  | cons a w ih =>
    obtain ⟨ha, hw⟩ := List.forall_mem_cons.mp hw
    rw [List.cons_append]
    unfold runNfaFrom
    rw [stepOn_eq_ok hqs.isHashable ha]
    -- the run may die before the end of the word, or go on to where it does
    by_cases hd : (A.step qs a).isEmpty = true
    · simp only [hd, if_true]
      exact ⟨_, rfl, rfl⟩
    · simp only [hd]
      exact ih (by simpa using hd) (isStateSet_step qs a) hw hdead

theorem rejects_extensions {w : Word} (hw : ∀ a ∈ w, a.isHashable = true)
    (hdead : (A.configuration w).isEmpty = true) (v : Word) :
    ∃ o, (A.runNfa (w ++ v)).outcome = .ok o ∧ o.verdict = .rejected :=
  runNfaFrom_append_of_dead isEmpty_initialConfiguration isStateSet_initialConfiguration hw hdead v

theorem verdict_of_dead {w : Word} (hw : ∀ a ∈ w, a.isHashable = true) (hdead : (A.configuration w).isEmpty = true) :
    A.verdict w = .rejected := by
  obtain ⟨o, ho, hv⟩ := rejects_extensions hw hdead []
  rw [List.append_nil] at ho
  unfold verdict
  rw [ho]
  exact hv

/-! ## Symbols that kill -/

def probedWord (A : Automaton) : Word := A.shortestAccepted?.getD []

/-- No state is left of the configuration after the word. -/
def Kills (A : Automaton) (w : Word) (a : Value) : Prop := (A.step (A.configuration w) a).isEmpty = true

/-- The symbol kills, and no symbol before it in canonical order does. -/
def IsFirstKiller (A : Automaton) (w : Word) (a : Value) : Prop :=
  A.Kills w a ∧ ∃ before after, A.symbols = before ++ a :: after ∧ ∀ b ∈ before, ¬ A.Kills w b

theorem find?_kills_eq_some_iff {w : Word} {a : Value} :
    (A.symbols.find? fun a => (A.step (A.configuration w) a).isEmpty) = some a ↔ A.IsFirstKiller w a := by
  simp [List.find?_eq_some_iff_append, IsFirstKiller, Kills]

theorem IsFirstKiller.unique {w : Word} {a b : Value} (ha : A.IsFirstKiller w a) (hb : A.IsFirstKiller w b) :
    a = b := by
  rw [← find?_kills_eq_some_iff] at ha hb
  exact Option.some.inj (ha.symm.trans hb)

theorem exists_isFirstKiller_iff {w : Word} : (∃ a, A.IsFirstKiller w a) ↔ ∃ a ∈ A.alphabet, A.Kills w a := by
  simp only [← find?_kills_eq_some_iff, ← Option.isSome_iff_exists, List.find?_isSome, symbols, mem_canonicalOrder]
  rfl

theorem deadSymbol?_eq_some_iff {w : Word} {a : Value} :
    A.deadSymbol? w = some a ↔ A.IsFirstKiller w a ∧ a ≠ .null := by
  unfold deadSymbol?
  rw [← find?_kills_eq_some_iff]
  split
  · rename_i h
    simp +contextual [h, eq_comm]
  · rename_i h
    exact ⟨fun ha => ⟨ha, fun hnull => h (hnull ▸ ha)⟩, And.left⟩

theorem exists_deadSymbol?_iff {w : Word} :
    (∃ a, A.deadSymbol? w = some a) ↔ (∃ a ∈ A.alphabet, A.Kills w a) ∧ ¬ A.IsFirstKiller w .null := by
  simp only [deadSymbol?_eq_some_iff, ← exists_isFirstKiller_iff]
  constructor
  · intro ⟨a, ha, hne⟩
    exact ⟨⟨a, ha⟩, fun hnull => hne (ha.unique hnull)⟩
  · intro ⟨⟨a, ha⟩, hnull⟩
    exact ⟨a, ha, fun h => hnull (h ▸ ha)⟩

theorem adversarialWords_eq (A : Automaton) : A.adversarialWords =
    match A.deadSymbol? A.probedWord with
    | none => []
    | some a => (A.probedWord ++ [a]) :: (A.symbols.head?.toList.map fun b => A.probedWord ++ [a, b]) := rfl

theorem adversarialWords_ne_nil_iff : A.adversarialWords ≠ [] ↔ ∃ a, A.deadSymbol? A.probedWord = some a := by
  rw [adversarialWords_eq]
  cases A.deadSymbol? A.probedWord with
  | none => simp
  | some a => simp

theorem mem_adversarialWords {w : Word} (h : w ∈ A.adversarialWords) :
    ∃ a v, w = A.probedWord ++ a :: v ∧ A.Kills A.probedWord a ∧ ∀ b ∈ a :: v, b ∈ A.symbols := by
  rw [adversarialWords_eq] at h
  cases hdead : A.deadSymbol? A.probedWord with
  | none => rw [hdead] at h; cases h
  | some a =>
    obtain ⟨⟨hkills, before, after, hsymbols, _⟩, _⟩ := deadSymbol?_eq_some_iff.mp hdead
    have ha : a ∈ A.symbols := by simp [hsymbols]
    simp only [hdead, List.mem_cons, List.mem_map, Option.mem_toList] at h
    rcases h with rfl | ⟨b, hb, rfl⟩
    · exact ⟨a, [], rfl, hkills, by simpa using ha⟩
    · exact ⟨a, [b], rfl, hkills, by simpa using ⟨ha, List.mem_of_mem_head? hb⟩⟩

theorem adversarialWords_of_isFirstKiller {a : Value} (h : A.IsFirstKiller A.probedWord a) (hne : a ≠ .null) :
    ∃ b, A.symbols.head? = some b ∧ A.adversarialWords = [A.probedWord ++ [a], A.probedWord ++ [a, b]] := by
  have hdead := deadSymbol?_eq_some_iff.mpr ⟨h, hne⟩
  obtain ⟨_, before, after, hsymbols, _⟩ := h
  have hsome : ∃ b, A.symbols.head? = some b := by cases before <;> simp [hsymbols]
  obtain ⟨b, hb⟩ := hsome
  refine ⟨b, hb, ?_⟩
  rw [adversarialWords_eq, hdead, hb]; rfl

theorem isOverAlphabet_of_forall_mem_symbols {w : Word} (h : ∀ a ∈ w, a ∈ A.symbols) : A.IsOverAlphabet w :=
  fun a ha => mem_canonicalOrder.mp (h a ha)

theorem isOverAlphabet_probedWord (A : Automaton) : A.IsOverAlphabet A.probedWord := by
  unfold probedWord
  cases h : A.shortestAccepted? with
  | none => exact isOverAlphabet_nil
  | some w => exact (isLeastAccepted_of_eq_some h).overAlphabet

theorem isOverAlphabet_of_mem_adversarialWords {w : Word} (h : w ∈ A.adversarialWords) : A.IsOverAlphabet w := by
  obtain ⟨a, v, rfl, _, hv⟩ := mem_adversarialWords h
  exact List.forall_mem_append.mpr ⟨A.isOverAlphabet_probedWord, isOverAlphabet_of_forall_mem_symbols hv⟩

theorem configuration_of_mem_adversarialWords {w : Word} (h : w ∈ A.adversarialWords) : A.configuration w = [] := by
  obtain ⟨a, v, rfl, hkills, _⟩ := mem_adversarialWords h
  exact configuration_of_died hkills

end Automaton

end FiniteAutomata
