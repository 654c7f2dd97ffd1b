import FiniteAutomata.Proofs.DfaRuns
import FiniteAutomata.Proofs.Reports

/-!
# Checked automata are faithful to their drafts

The tables of a checked automaton hold the edges of its draft and nothing
else, all of it is declared, and closures, steps and runs never leave the
declared states (`Automaton.faithful`). Checks and constructions give no other
automata than those of their drafts (`automata_are_faithful`).
-/

namespace FiniteAutomata

namespace Automaton

def IsDeclared (A : Automaton) (qs : List Value) : Prop := ∀ q ∈ qs, q.isHashable = true ∧ A.states.contains q = true

/-- A nondeterministic run traces the texts of the states of a
configuration. -/
def IsDeclaredTexts (A : Automaton) (v : Value) : Prop :=
  ∃ qs, A.IsDeclared qs ∧ v = .list ((sortTexts (qs.map Value.written)).map .text)

/-- A deterministic run traces the state that it comes to. -/
def IsDeclaredOrNull (A : Automaton) (v : Value) : Prop := v = .null ∨ A.IsDeclared [v]

/-- What a run reports: the states that it ends in, and the value of each step
of its trace. -/
def Reports (r : Run) (ends : List Value → Prop) (passes : Value → Prop) : Prop :=
  (∀ o, r.outcome = .ok o → ends o.finalStates) ∧ ∀ s ∈ r.trace, passes s.value

/-- What the parts of a checked automaton have to do with its draft and with
each other. -/
structure Faithful (A : Automaton) : Prop where
  checked : A.draft.validate false false = .ok ⟨A.issues, [], some A⟩
  moves : ∀ q a r, (A.moves.targets (q, a)).contains r = true ↔ ∃ t ∈ A.draft.transitions, t.isEpsilon = false ∧
    (t.source == q) = true ∧ (t.symbol == a) = true ∧ (t.target == r) = true
  silent : ∀ q r, (A.silent.targets q).contains r = true ↔ ∃ t ∈ A.draft.transitions, t.isEpsilon = true ∧
    (t.source == q) = true ∧ (t.target == r) = true
  moveRows : A.moves.OneRowPerKey ∧ ∀ row ∈ A.moves, row.2.isEmpty = false
  silentRows : A.silent.OneRowPerKey ∧ ∀ row ∈ A.silent, row.2.isEmpty = false
  declaredMoves : ∀ row ∈ A.moves, A.states.contains row.1.1 = true ∧ A.alphabet.contains row.1.2 = true ∧
    (row.1.2 == epsilon) = false ∧ A.IsDeclared row.2
  declaredSilent : ∀ row ∈ A.silent, A.states.contains row.1 = true ∧ A.IsDeclared row.2
  reserved : A.alphabet.contains epsilon = false
  initial : A.states.contains A.initial = true
  finals : A.IsDeclared A.finals
  read : A.kind ≠ .epsilonNfa → A.silent = []
  deterministic : A.kind = .dfa → ∀ row ∈ A.moves, row.2.length = 1
  closures : ∀ qs, A.IsDeclared qs → ∃ rs, A.closureOf qs = .ok rs ∧ A.IsDeclared rs
  steps : ∀ qs a, A.IsDeclared qs → a.isHashable = true → ∃ rs, A.stepOn qs a = .ok rs ∧ A.IsDeclared rs
  nfaRuns : ∀ w, Reports (A.runNfa w) A.IsDeclared A.IsDeclaredTexts
  dfaRuns : ∀ w, Reports (A.runDfa w) A.IsDeclared A.IsDeclaredOrNull

variable {A : Automaton}

/-! ## Declared states -/

theorem contains_states {q : Value} : A.states.contains q = A.draft.states.contains q := contains_distinct _ q

theorem contains_alphabet {a : Value} : A.alphabet.contains a = A.draft.alphabet.contains a := contains_distinct _ a

theorem isDeclared_of_states {qs : List Value} (hhash : ∀ q ∈ qs, q.isHashable = true)
    (h : ∀ q ∈ qs, A.draft.states.contains q = true) : A.IsDeclared qs := by
  intro q hq
  rw [contains_states]
  exact ⟨hhash q hq, h q hq⟩

theorem isDeclared_initial : A.IsDeclared [A.initial] := by
  obtain ⟨-, -, hinitial, -⟩ := Draft.forall_labels.mp (Draft.forall_hashed_of_isHashable A.hashable)
  exact isDeclared_of_states (List.forall_mem_singleton.mpr hinitial)
    (List.forall_mem_singleton.mpr A.wellFormed.initial)

theorem isDeclared_finals : A.IsDeclared A.finals := by
  obtain ⟨-, -, -, hfinals, -⟩ := Draft.forall_labels.mp (Draft.forall_hashed_of_isHashable A.hashable)
  exact isDeclared_of_states (fun q hq => hfinals q (mem_of_mem_distinct hq))
    fun q hq => A.wellFormed.finals q (mem_of_mem_distinct hq)

theorem isDeclared_of_targets {qs : List Value} (h : ∀ q ∈ qs, ∃ t ∈ A.draft.transitions, t.target = q) :
    A.IsDeclared qs := by
  refine isDeclared_of_states (fun q hq => ?_) fun q hq => ?_
  · obtain ⟨t, ht, rfl⟩ := h q hq
    exact isHashable_of_mem_labels (mem_labels_of_target ht)
  · obtain ⟨t, ht, rfl⟩ := h q hq
    exact A.wellFormed.target t ht

/-! ## Rows -/

theorem edge_of_mem_moves {row : (Value × Value) × List Value} (hrow : row ∈ A.moves) {r : Value} (hr : r ∈ row.2) :
    ∃ t ∈ A.draft.transitions, t.isEpsilon = false ∧ (t.source == row.1.1) = true ∧ (t.symbol == row.1.2) = true ∧
      t.target = r := by
  rw [A.moves_eq] at hrow
  rw [← Rows.targets_eq_of_mem (oneRowPerKey_moves _) hrow] at hr
  exact mem_targets_moves hr

theorem edge_of_mem_silent {row : Value × List Value} (hrow : row ∈ A.silent) {r : Value} (hr : r ∈ row.2) :
    ∃ t ∈ A.draft.transitions, t.isEpsilon = true ∧ (t.source == row.1) = true ∧ t.target = r := by
  rw [A.silent_eq] at hrow
  rw [← Rows.targets_eq_of_mem (oneRowPerKey_silentMoves _) hrow] at hr
  exact mem_targets_silentMoves hr

theorem isEmpty_of_mem_moves (A : Automaton) : ∀ row ∈ A.moves, row.2.isEmpty = false := by
  rw [A.moves_eq]
  exact FiniteAutomata.isEmpty_of_mem_moves _

theorem isEmpty_of_mem_silent (A : Automaton) : ∀ row ∈ A.silent, row.2.isEmpty = false := by
  rw [A.silent_eq]
  exact isEmpty_of_mem_silentMoves _

/-- A row has targets, so its key is that of an edge, and what is checked of
edges holds of it. -/
theorem declared_of_mem_moves {row : (Value × Value) × List Value} (hrow : row ∈ A.moves) :
    A.states.contains row.1.1 = true ∧ A.alphabet.contains row.1.2 = true ∧ (row.1.2 == epsilon) = false ∧
      A.IsDeclared row.2 := by
  obtain ⟨r, hr⟩ := List.exists_mem_of_ne_nil _ (List.isEmpty_eq_false_iff.mp (A.isEmpty_of_mem_moves row hrow))
  obtain ⟨t, ht, he, hs, ha, _⟩ := edge_of_mem_moves hrow hr
  rw [contains_states, contains_alphabet]
  refine ⟨contains_of_beq (A.wellFormed.source t ht) hs, contains_of_beq (A.wellFormed.contains_symbol ht he) ha,
    ?_, ?_⟩
  · rw [← BEq.congr_left ha]
    exact he
  · refine isDeclared_of_targets fun q hq => ?_
    obtain ⟨u, hu, _, _, _, htarget⟩ := edge_of_mem_moves hrow hq
    exact ⟨u, hu, htarget⟩

theorem declared_of_mem_silent {row : Value × List Value} (hrow : row ∈ A.silent) :
    A.states.contains row.1 = true ∧ A.IsDeclared row.2 := by
  obtain ⟨r, hr⟩ := List.exists_mem_of_ne_nil _ (List.isEmpty_eq_false_iff.mp (A.isEmpty_of_mem_silent row hrow))
  obtain ⟨t, ht, _, hs, _⟩ := edge_of_mem_silent hrow hr
  rw [contains_states]
  refine ⟨contains_of_beq (A.wellFormed.source t ht) hs, isDeclared_of_targets fun q hq => ?_⟩
  obtain ⟨u, hu, _, _, htarget⟩ := edge_of_mem_silent hrow hq
  exact ⟨u, hu, htarget⟩

theorem length_of_mem_moves (hk : A.kind = .dfa) {row : (Value × Value) × List Value} (hrow : row ∈ A.moves) :
    row.2.length = 1 := by
  have hle := length_successors_le_one hk row.1.1 row.1.2
  have hrow' := hrow
  rw [A.moves_eq] at hrow'
  unfold successors at hle
  rw [A.moves_eq, Rows.targets_eq_of_mem (oneRowPerKey_moves _) hrow'] at hle
  have hpos := List.length_pos_iff.mpr (List.isEmpty_eq_false_iff.mp (A.isEmpty_of_mem_moves row hrow))
  exact Nat.le_antisymm hle hpos

/-! ## What never leaves the declared states -/

theorem isDeclared_closure {qs : List Value} (h : A.IsDeclared qs) : A.IsDeclared (A.closure qs) := by
  intro q hq
  have hq : Reaches A.silent.targets qs q := reaches_of_mem_closure hq
  cases hq with
  | start hq => exact h q hq
  | @step p q _ hq =>
    have hdeclared : A.IsDeclared (A.silent.targets p) := by
      rw [A.silent_eq]
      refine isDeclared_of_targets fun r hr => ?_
      obtain ⟨t, ht, _, _, htarget⟩ := mem_targets_silentMoves hr
      exact ⟨t, ht, htarget⟩
    exact hdeclared q hq

theorem isDeclared_successors (q a : Value) : A.IsDeclared (A.successors q a) := by
  refine isDeclared_of_targets fun r hr => ?_
  obtain ⟨t, ht, _, _, _, htarget⟩ := mem_successors hr
  exact ⟨t, ht, htarget⟩

theorem isDeclared_step (qs : List Value) (a : Value) : A.IsDeclared (A.step qs a) := by
  refine isDeclared_closure fun r hr => ?_
  obtain ⟨q, _, hr⟩ := List.mem_flatMap.mp (mem_of_mem_distinct hr)
  exact isDeclared_successors q a r hr

theorem reports_after {r : Run} {ends : List Value → Prop} {passes : Value → Prop} {s : TraceStep}
    (h : Reports r ends passes) (hs : passes s.value) : Reports (r.after s) ends passes :=
  ⟨h.1, List.forall_mem_cons.mpr ⟨hs, h.2⟩⟩

theorem reports_ended {o : Outcome} {ends : List Value → Prop} (passes : Value → Prop) (h : ends o.finalStates) :
    Reports (.ended o) ends passes :=
  ⟨fun _ ho => (by cases ho; exact h), List.forall_mem_nil _⟩

theorem reports_failed (e : Fault) (ends : List Value → Prop) (passes : Value → Prop) :
    Reports (.failed e) ends passes :=
  ⟨fun _ ho => (by cases ho), List.forall_mem_nil _⟩

theorem reports_runNfaFrom {w qs : List Value} (n : Nat) (h : A.IsDeclared qs) :
    Reports (A.runNfaFrom qs n w) A.IsDeclared A.IsDeclaredTexts := by
  induction w generalizing qs n with
  | nil => exact reports_ended _ h
  | cons a w ih =>
    unfold runNfaFrom
    cases hs : A.stepOn qs a with
    | error e => exact reports_failed e _ _
    | ok following =>
      have hdeclared : A.IsDeclared following := by
        rw [eq_step_of_stepOn hs]
        exact isDeclared_step qs a
      dsimp only
      split
      · exact reports_after (reports_ended _ (List.forall_mem_nil _)) ⟨following, hdeclared, rfl⟩
      · exact reports_after (ih (n + 1) hdeclared) ⟨following, hdeclared, rfl⟩

theorem reports_runDfaFrom {w : List Value} {q : Value} (n : Nat) (h : A.IsDeclared [q]) :
    Reports (A.runDfaFrom q n w) A.IsDeclared A.IsDeclaredOrNull := by
  induction w generalizing q n with
  | nil => exact reports_ended _ h
  | cons a w ih =>
    unfold runDfaFrom
    cases hs : A.successorsOf q a with
    | error e => exact reports_failed e _ _
    | ok targets =>
      have hdeclared : A.IsDeclared targets := by
        rw [eq_successors_of_successorsOf hs]
        exact isDeclared_successors q a
      cases targets with
      | nil => exact reports_after (reports_ended _ (List.forall_mem_nil _)) (.inl rfl)
      | cons target rest =>
        cases rest with
        | nil => exact reports_after (ih (n + 1) hdeclared) (.inr hdeclared)
        | cons _ _ => exact reports_failed _ _ _

theorem reports_runNfa (w : List Value) : Reports (A.runNfa w) A.IsDeclared A.IsDeclaredTexts :=
  reports_runNfaFrom 0 (isDeclared_closure isDeclared_initial)

theorem reports_runDfa (w : List Value) : Reports (A.runDfa w) A.IsDeclared A.IsDeclaredOrNull := by
  unfold runDfa
  cases A.checkDfa with
  | error e => exact reports_failed e _ _
  | ok _ => exact reports_runDfaFrom 0 isDeclared_initial

/-! ## Faithfulness -/

theorem closureOf_eq_ok {qs : List Value} (hqs : ∀ q ∈ qs, q.isHashable = true) :
    A.closureOf qs = .ok (A.closure qs) := by
  unfold closureOf
  rw [checkHashes_eq_ok_iff.mpr hqs]; rfl

theorem faithful (A : Automaton) : A.Faithful where
  checked := by
    obtain ⟨B, hB, hv⟩ := Draft.validate_of_isSound A.hashable A.sound
    have heq : B = A := Option.some.inj (by rw [← ofDraft?_draft B, hB, ofDraft?_draft])
    rw [hv, heq]
  moves := fun _ _ _ => A.contains_successors_iff
  silent := by
    intro q r
    rw [A.silent_eq, contains_targets_silentMoves_iff]
    simp [and_assoc]
  moveRows := ⟨by rw [A.moves_eq]; exact oneRowPerKey_moves _, A.isEmpty_of_mem_moves⟩
  silentRows := ⟨by rw [A.silent_eq]; exact oneRowPerKey_silentMoves _, A.isEmpty_of_mem_silent⟩
  declaredMoves := fun _ => declared_of_mem_moves
  declaredSilent := fun _ => declared_of_mem_silent
  reserved := by rw [contains_alphabet]; exact A.wellFormed.reserved
  initial := (isDeclared_initial _ List.mem_cons_self).2
  finals := isDeclared_finals
  read := silent_eq_nil
  deterministic := fun hk _ => length_of_mem_moves hk
  closures := fun _ h => ⟨_, closureOf_eq_ok fun q hq => (h q hq).1, isDeclared_closure h⟩
  steps := fun _ _ h ha => ⟨_, stepOn_eq_ok (fun q hq => (h q hq).1) ha, isDeclared_step _ _⟩
  nfaRuns := reports_runNfa
  dfaRuns := reports_runDfa

end Automaton

/-! ## Where automata come from -/

section
variable {d : Draft} {strict failFast : Bool} {record kind : Value} {r : Report} {A D : Automaton}

theorem Draft.draft_of_validate (h : d.validate strict failFast = .ok r) (hA : r.automaton? = some A) :
    A.draft = d := by
  unfold validate at h
  cases hhash : checkHashes d.hashedFirst with
  | error e => rw [hhash] at h; cases h
  | ok _ =>
    rw [hhash] at h
    cases hstages : runStages failFast [] (d.stages strict) with
    | error e => rw [hstages] at h; cases h
    | ok is =>
      rw [hstages] at h
      cases h
      exact (draft_of_report hA).1

theorem draft_of_validateRecord (h : validateRecord record kind strict failFast = .ok r) (hA : r.automaton? = some A) :
    ∃ d kind?, Draft.read record = .ok d ∧ Kind.override kind = .ok kind? ∧ A.draft = d.withKind kind? := by
  unfold validateRecord checkRecord Draft.checkAs at h
  cases hread : Draft.read record with
  | error defects =>
    rw [hread] at h
    cases h; cases hA
  | ok d =>
    rw [hread] at h
    cases hkind : Kind.override kind with
    | error e => rw [hkind] at h; cases h
    | ok kind? =>
      rw [hkind] at h
      exact ⟨d, kind?, rfl, rfl, Draft.draft_of_validate h hA⟩

theorem Automaton.draft_of_determinize (h : A.determinize = .ok D) : D.draft = A.subsetDraft := by
  obtain ⟨D', hdraft, hdet, _⟩ := A.determinize_eq_ok
  rw [← Except.ok.inj (hdet.symm.trans h)]
  exact hdraft

theorem Report.exists_of_determinize {r' : Report} (h : r.determinize = .ok r') (hD : r'.automaton? = some D) :
    ∃ A, r.automaton? = some A ∧ A.determinize = .ok D := by
  unfold determinize at h
  cases hA : r.automaton? with
  | none =>
    rw [hA] at h
    cases h
    rw [hA] at hD
    cases hD
  | some A =>
    rw [hA] at h
    obtain ⟨D', _, hdet, _⟩ := A.determinize_eq_ok
    dsimp only at h
    rw [hdet] at h
    cases h
    exact ⟨A, rfl, by rw [hdet, Option.some.inj hD]⟩

theorem Draft.exists_of_determinize (h : d.determinize strict = .ok r) (hD : r.automaton? = some D) :
    ∃ A : Automaton, A.draft = (if d.kind = .dfa then d.withKind (some .nfa) else d) ∧ A.determinize = .ok D := by
  unfold determinize at h
  cases hv : (if d.kind = .dfa then d.withKind (some .nfa) else d).validate strict false with
  | error e => rw [hv] at h; cases h
  | ok s =>
    rw [hv] at h
    obtain ⟨A, hA, hdet⟩ := Report.exists_of_determinize h hD
    exact ⟨A, draft_of_validate hv hA, hdet⟩

theorem exists_of_determinizeRecord (h : determinizeRecord record strict = .ok r) (hD : r.automaton? = some D) :
    ∃ d kind?, ∃ A : Automaton, Draft.read record = .ok d ∧ A.draft = d.withKind kind? ∧ A.determinize = .ok D := by
  unfold determinizeRecord at h
  split at h
  · dsimp only at h
    split at h
    · cases h
    · rename_i s hv
      obtain ⟨A, hA, hdet⟩ := Report.exists_of_determinize h hD
      obtain ⟨d, kind?, hread, _, hdraft⟩ := draft_of_validateRecord hv hA
      exact ⟨d, kind?, A, hread, hdraft, hdet⟩
  · cases h

end

/-- Every automaton is faithful to its draft, and the draft of an automaton
that a check or a construction gives is the draft that was checked, or that of
the subset construction. -/
theorem automata_are_faithful : (∀ A : Automaton, A.Faithful) ∧
    (∀ (d : Draft) (strict failFast : Bool) (r : Report) (A : Automaton), d.validate strict failFast = .ok r →
      r.automaton? = some A → A.draft = d) ∧
    (∀ (record kind : Value) (strict failFast : Bool) (r : Report) (A : Automaton),
      validateRecord record kind strict failFast = .ok r → r.automaton? = some A →
        ∃ d kind?, Draft.read record = .ok d ∧ Kind.override kind = .ok kind? ∧ A.draft = d.withKind kind?) ∧
    (∀ A D : Automaton, A.determinize = .ok D → D.draft = A.subsetDraft) ∧
    (∀ (d : Draft) (strict : Bool) (r : Report) (D : Automaton), d.determinize strict = .ok r → r.automaton? = some D →
      ∃ A : Automaton, A.draft = (if d.kind = .dfa then d.withKind (some .nfa) else d) ∧ A.determinize = .ok D) ∧
    ∀ (record : Value) (strict : Bool) (r : Report) (D : Automaton), determinizeRecord record strict = .ok r →
      r.automaton? = some D →
        ∃ d kind?, ∃ A : Automaton, Draft.read record = .ok d ∧ A.draft = d.withKind kind? ∧ A.determinize = .ok D :=
  ⟨Automaton.faithful, fun _ _ _ _ _ h hA => Draft.draft_of_validate h hA,
    fun _ _ _ _ _ _ h hA => draft_of_validateRecord h hA,
    fun _ _ h => Automaton.draft_of_determinize h, fun _ _ _ _ h hD => Draft.exists_of_determinize h hD,
    fun _ _ _ _ h hD => exists_of_determinizeRecord h hD⟩

open Automaton in
theorem automata_are_faithful_silentLoop : ∃ D,
    silentLoop.draft.validate false false = .ok ⟨silentLoop.issues, [], some silentLoop⟩ ∧
    silentLoop.determinize = .ok D ∧ D.draft = silentLoop.subsetDraft ∧ D.Faithful := by
  obtain ⟨hfaithful, _, _, hsubsets, _⟩ := automata_are_faithful
  obtain ⟨D, _, hdet, _⟩ := silentLoop.determinize_eq_ok
  exact ⟨D, (hfaithful silentLoop).checked, hdet, hsubsets silentLoop D hdet, hfaithful D⟩

end FiniteAutomata
