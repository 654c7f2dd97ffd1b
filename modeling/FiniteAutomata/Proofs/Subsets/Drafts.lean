import FiniteAutomata.Proofs.Kinds
import FiniteAutomata.Proofs.Readings

/-!
# Determinizing a draft

Whatever the form a draft is given in, it is checked, and if it passes the
subset construction goes on with its automaton: what was told is told again
and verdicts stay the same (`Report.Determinized`). The check differs from the
one of the draft alone only where that is of the deterministic kind, so all
automata of the draft agree (`determinize_continues_validate`).
-/

namespace FiniteAutomata

/-- The verdict of a run, or why it has none. -/
def Run.verdict (r : Run) : Except Fault Verdict := r.outcome.map Outcome.verdict

/-- What determinizing gives for a draft about which the check reports `V`,
when `Handle` holds of the automata that other checks of the draft give. -/
structure Report.Determinized (V : Report) (Handle : Automaton → Prop) (r : Report) : Prop where
  ok : r.ok = V.ok
  rejected : V.ok = false → r = V
  accepted : V.ok = true → r.issues = V.issues ∧ ∀ i ∈ V.issues, i.isWarning = true
  kind : ∀ D, r.automaton? = some D → D.kind = .dfa
  verdicts : ∀ A D, V.automaton? = some A → r.automaton? = some D →
    ∀ w, (D.runDfa w).verdict = (A.runNfa w).verdict
  ends : ∀ D, r.automaton? = some D → ∀ w, (∀ a ∈ w, a.isHashable = true) → ∃ v, (D.runDfa w).verdict = .ok v
  handles : ∀ B D, Handle B → B.kind = .dfa → r.automaton? = some D →
    ∀ w, (B.runDfa w).verdict = (D.runDfa w).verdict

/-! ## Verdicts -/

namespace Automaton

variable {A B D : Automaton}

section
variable (hD : D.draft = A.subsetDraft) (w : List Value)
include hD

theorem verdict_runDfa_eq : (D.runDfa w).verdict = (A.runNfa w).verdict := by
  unfold Run.verdict
  rcases runDfa_standsFor_or_fails hD w with ⟨o, o', ho, ho', hsame⟩ | ⟨_, _, _, e, he, he'⟩
  · rw [ho, ho']
    exact congrArg Except.ok hsame.verdict
  · rw [he, he']

theorem exists_verdict (hw : ∀ a ∈ w, a.isHashable = true) : ∃ v, (D.runDfa w).verdict = .ok v := by
  unfold Run.verdict
  rcases runDfa_standsFor_or_fails hD w with ⟨o, _, ho, _⟩ | ⟨a, ha, hnot, _⟩
  · rw [ho]
    exact ⟨o.verdict, rfl⟩
  · rw [hw a ha] at hnot
    cases hnot

end

theorem verdict_runDfa_eq_of_draft_eq {d : Draft} {kind kind' : Option Kind} (hA : A.draft = d.withKind kind)
    (hB : B.draft = d.withKind kind') (hk : B.kind = .dfa) (w : List Value) :
    (B.runDfa w).verdict = (A.runNfa w).verdict := by
  unfold Run.verdict
  rw [outcome_runDfa_eq hk, (Draft.tables_eq_of_draft_eq hA hB).2.2]

end Automaton

/-! ## Reports with an automaton -/

theorem Issue.isWarning_eq_not_isError (i : Issue) : i.isWarning = !i.isError := by
  unfold Issue.isWarning Issue.isError
  cases i.severity <;> rfl

theorem Draft.warnings_of_validate {d : Draft} {strict failFast : Bool} {V : Report} {A : Automaton}
    (hV : d.validate strict failFast = .ok V) (hA : V.automaton? = some A) :
    V.defects = [] ∧ ∀ i ∈ V.issues, i.isWarning = true := by
  have hhash : d.isHashable = true := by
    rw [← draft_of_validate hV hA]
    exact A.hashable
  rw [validate_eq hhash strict failFast] at hV
  cases hV
  obtain ⟨_, hnone⟩ := draft_of_report hA
  refine ⟨rfl, fun i hi => ?_⟩
  obtain ⟨j, hj, rfl⟩ := List.mem_map.mp hi
  rw [Issue.isWarning_eq_not_isError]
  show (!j.isError) = true
  rw [hnone j hj]; rfl

/-! ## The construction after a check -/

section
variable {V : Report} (Handle : Automaton → Prop)

theorem Report.determinized_of_rejected (hV : V.automaton? = none) :
    V.determinize = .ok V ∧ V.Determinized Handle V := by
  have hno {A : Automaton} (hA : V.automaton? = some A) : False := by
    rw [hV] at hA
    cases hA
  refine ⟨by unfold determinize; rw [hV], ?_⟩
  exact {
    ok := rfl
    rejected := fun _ => rfl
    accepted := fun hok => by
      rw [Report.ok, hV] at hok
      cases hok
    kind := fun _ hD => (hno hD).elim
    verdicts := fun _ _ hA => (hno hA).elim
    ends := fun _ hD => (hno hD).elim
    handles := fun _ _ _ _ hD => (hno hD).elim }

variable {d : Draft} {kind : Option Kind} {strict : Bool}

theorem Report.determinized_of_validate (hV : (d.withKind kind).validate strict false = .ok V)
    (hHandle : ∀ B, Handle B → ∃ kind', B.draft = d.withKind kind') :
    ∃ r, V.determinize = .ok r ∧ V.Determinized Handle r := by
  cases hA : V.automaton? with
  | none => exact ⟨V, determinized_of_rejected Handle hA⟩
  | some A =>
    have hdraft := Draft.draft_of_validate hV hA
    obtain ⟨hdefects, hwarnings⟩ := Draft.warnings_of_validate hV hA
    obtain ⟨D, hD, hdet, _⟩ := A.determinize_eq_ok
    have hissues : V.warnings = V.issues := List.filter_eq_self.mpr hwarnings
    have hok : V.ok = true := by rw [Report.ok, hA, Option.isSome_some]
    refine ⟨⟨V.issues, [], some D⟩, ?_, ?_⟩
    · unfold determinize
      rw [hA, hissues]
      dsimp only
      rw [hdet]; rfl
    · exact {
        ok := hok.symm
        rejected := fun hno => by rw [hok] at hno; cases hno
        accepted := fun _ => ⟨rfl, hwarnings⟩
        kind := fun D' hD' => by
          cases hD'
          exact Automaton.kind_of_draft_eq hD
        verdicts := fun A' D' hA' hD' w => by
          cases hA.symm.trans hA'
          cases hD'
          exact Automaton.verdict_runDfa_eq hD w
        ends := fun D' hD' w hw => by
          cases hD'
          exact Automaton.exists_verdict hD w hw
        handles := fun B D' hB hk hD' w => by
          cases hD'
          obtain ⟨kind', hB⟩ := hHandle B hB
          rw [Automaton.verdict_runDfa_eq hD]
          exact Automaton.verdict_runDfa_eq_of_draft_eq hdraft hB hk w }

end

/-! ## The kind of a record -/

theorem Kind.ofName?_eq_dfa_iff {s : String} : ofName? s = some .dfa ↔ s = dfa.name := by
  constructor
  · intro h
    have hname : dfa.name = s := by simpa using List.find?_some h
    exact hname.symm
  · intro h
    rw [h]
    exact ofName?_name dfa

theorem Draft.kind_of_read {v : Value} {d : Draft} (h : read v = .ok d) :
    Reading.fieldOr "kind" Kind.nfa (Reading.named Kind.ofName?) v = .ok d.kind := by
  cases v with
  | record items =>
    simp only [read, Reading.record, Reading.next_eq_ok_iff, Except.ok.injEq] at h
    obtain ⟨_, _, ⟨_, _, ⟨_, _, ⟨_, _, ⟨_, _, ⟨_, k, rfl, hkind, rfl⟩, _, rfl⟩, _, rfl⟩, _, rfl⟩, _, rfl⟩, _, rfl⟩ := h
    exact hkind
  | _ => cases h

/-- Bytes can stand for the name of a kind as well, but they do not equal
it. -/
theorem Draft.declares_dfa_iff_of_read {v : Value} {d : Draft} (h : read v = .ok d)
    (hbytes : ∀ bs, v.field? "kind" ≠ some (.bytes bs) ∧ v.field? "kind" ≠ some (.byteArray bs)) :
    (v.field? "kind" == some (.text Kind.dfa.name)) = true ↔ d.kind = .dfa := by
  have hkind := kind_of_read h
  unfold Reading.fieldOr at hkind
  cases hf : v.field? "kind" with
  | none =>
    rw [hf] at hkind
    rw [← Except.ok.inj hkind]
    simp
  | some u =>
    rw [hf] at hkind
    cases u with
    | text s =>
      cases hs : Kind.ofName? s with
      | none => simp [Reading.named, Reading.orFail, hs, Reading.fail, Reading.placed] at hkind
      | some k =>
        simp only [Reading.named, Reading.orFail, hs, Reading.placed, Except.ok.injEq] at hkind
        rw [← hkind, Option.some_beq_some, Value.beq_text_iff, Value.text.injEq, ← Kind.ofName?_eq_dfa_iff, hs,
          Option.some.injEq]
    | bytes bs => exact absurd hf (hbytes bs).1
    | byteArray bs => exact absurd hf (hbytes bs).2
    | _ => cases hkind

/-! ## Drafts in either form -/

/-- An automaton that some check of a draft gives, whatever the kind it is
checked as. -/
def Draft.IsHandle (d : Draft) (B : Automaton) : Prop :=
  ∃ kind strict failFast, (d.withKind kind).Yields strict failFast B

/-- An automaton that some check of a record gives. -/
def IsRecordHandle (record : Value) (B : Automaton) : Prop :=
  ∃ kind strict failFast r, validateRecord record kind strict failFast = .ok r ∧ r.automaton? = some B

theorem Draft.determinize_of_validate (d : Draft) (h : d.isHashable = true) (strict : Bool) : ∃ V r,
    (d.withKind (if d.kind = .dfa then some .nfa else none)).validate strict false = .ok V ∧
      d.determinize strict = .ok r ∧ V.Determinized d.IsHandle r := by
  have hdraft : (if d.kind = .dfa then d.withKind (some .nfa) else d) =
      d.withKind (if d.kind = .dfa then some .nfa else none) := by
    by_cases hk : d.kind = .dfa
    · rw [if_pos hk, if_pos hk]
    · rw [if_neg hk, if_neg hk]; rfl
  have hV := validate_eq (d := d.withKind (if d.kind = .dfa then some .nfa else none)) h strict false
  obtain ⟨r, hr, hdet⟩ := Report.determinized_of_validate d.IsHandle hV
    fun B ⟨kind, _, _, hB⟩ => ⟨kind, hB.draft_eq⟩
  refine ⟨_, r, hV, ?_, hdet⟩
  unfold determinize
  rw [hdraft, hV]
  exact hr

theorem determinized_of_validateRecord {record kind : Value} {kind? : Option Kind}
    (hkind : Kind.override kind = .ok kind?) (h : ∀ d, Draft.read record = .ok d → d.isHashable = true)
    (strict : Bool) : ∃ V r, validateRecord record kind strict false = .ok V ∧ V.determinize = .ok r ∧
      V.Determinized (IsRecordHandle record) r := by
  unfold validateRecord checkRecord Draft.checkAs
  cases hread : Draft.read record with
  | error defects =>
    obtain ⟨hr, hdet⟩ := Report.determinized_of_rejected (V := .unreadable defects) (IsRecordHandle record) rfl
    exact ⟨_, _, rfl, hr, hdet⟩
  | ok d =>
    have hV := Draft.validate_eq (d := d.withKind kind?) (h d hread) strict false
    obtain ⟨r, hr, hdet⟩ := Report.determinized_of_validate (IsRecordHandle record) hV
      fun B ⟨kind', _, _, _, hB, hsome⟩ => by
        obtain ⟨d', kind'', hread', _, hdraft⟩ := draft_of_validateRecord hB hsome
        cases hread.symm.trans hread'
        exact ⟨kind'', hdraft⟩
    rw [hkind]
    exact ⟨_, r, hV, hr, hdet⟩

theorem determinizeRecord_of_validate (items : List (Value × Value))
    (h : ∀ d, Draft.read (.record items) = .ok d → d.isHashable = true) (strict : Bool) : ∃ V r,
    validateRecord (.record items)
        (if (Value.record items).field? "kind" == some (.text Kind.dfa.name) then .text Kind.nfa.name else .null)
        strict false = .ok V ∧
      determinizeRecord (.record items) strict = .ok r ∧ V.Determinized (IsRecordHandle (.record items)) r := by
  have hdeclared : (((Value.record items).field? "kind").getD .null == .text Kind.dfa.name) =
      ((Value.record items).field? "kind" == some (.text Kind.dfa.name)) := by
    cases (Value.record items).field? "kind" with
    | none => rfl
    | some v => rfl
  have hoverride (declared : Bool) :
      ∃ kind?, Kind.override (if declared then .text Kind.nfa.name else .null) = .ok kind? := by
    cases declared with
    | true => exact ⟨some .nfa, rfl⟩
    | false => exact ⟨none, rfl⟩
  obtain ⟨kind?, hkind⟩ := hoverride ((Value.record items).field? "kind" == some (.text Kind.dfa.name))
  obtain ⟨V, r, hV, hr, hdet⟩ := determinized_of_validateRecord hkind h strict
  refine ⟨V, r, hV, ?_, hdet⟩
  unfold determinizeRecord
  dsimp only
  rw [hdeclared, hV]
  exact hr

/-- Determinizing goes on from a check of the draft, as nondeterministic if
the draft is of the deterministic kind. This holds of drafts, and of records
whatever is wrong with them; a record declares the deterministic kind exactly
when the draft that it reads as is of that kind. -/
theorem determinize_continues_validate :
    (∀ (d : Draft) (strict : Bool), d.isHashable = true → ∃ V r,
      (d.withKind (if d.kind = .dfa then some .nfa else none)).validate strict false = .ok V ∧
        d.determinize strict = .ok r ∧ V.Determinized d.IsHandle r) ∧
    ∀ (items : List (Value × Value)) (strict : Bool),
      (∀ d, Draft.read (.record items) = .ok d → d.isHashable = true) →
        (∃ V r, validateRecord (.record items)
            (if (Value.record items).field? "kind" == some (.text Kind.dfa.name) then .text Kind.nfa.name else .null)
            strict false = .ok V ∧
          determinizeRecord (.record items) strict = .ok r ∧ V.Determinized (IsRecordHandle (.record items)) r) ∧
        ∀ d, Draft.read (.record items) = .ok d →
          (∀ bs, (Value.record items).field? "kind" ≠ some (.bytes bs) ∧
            (Value.record items).field? "kind" ≠ some (.byteArray bs)) →
          (((Value.record items).field? "kind" == some (.text Kind.dfa.name)) = true ↔ d.kind = .dfa) :=
  ⟨fun d strict h => d.determinize_of_validate h strict, fun items strict h =>
    ⟨determinizeRecord_of_validate items h strict, fun _ hread => Draft.declares_dfa_iff_of_read hread⟩⟩

/-- One state and symbol lead to two states, so this never validates as the
kind that it declares. -/
def fork : Draft :=
  ⟨.dfa, [.int 0, .int 1], [.text "a"], .int 0, [.int 1], [⟨.int 0, .text "a", .int 0⟩, ⟨.int 0, .text "a", .bool true⟩]⟩

theorem determinize_continues_validate_fork : fork.isHashable = true ∧
    (∃ V r, (fork.withKind (some .nfa)).validate true false = .ok V ∧ fork.determinize true = .ok r ∧ r.ok = true ∧
      V.Determinized fork.IsHandle r) ∧
    ∃ V r, validateRecord fork.record (.text Kind.nfa.name) true false = .ok V ∧
      determinizeRecord fork.record true = .ok r ∧ V.Determinized (IsRecordHandle fork.record) r := by
  have hhash : fork.isHashable = true := by decide
  obtain ⟨hdrafts, hrecords⟩ := determinize_continues_validate
  obtain ⟨V, r, hV, hr, hdet⟩ := hdrafts fork true hhash
  have hread : Draft.read fork.record = .ok fork := rfl
  obtain ⟨⟨V', r', hV', hr', hdet'⟩, _⟩ := hrecords _ true fun d (h : Draft.read fork.record = .ok d) => by
    cases hread.symm.trans h
    exact hhash
  obtain ⟨A, s, hs, hA⟩ : ∃ A, (fork.withKind (some .nfa)).Yields true false A :=
    Draft.exists_yields_iff.mpr ⟨hhash, Draft.isSound_iff_wellFormed.mp (by decide +kernel),
      fun _ => ⟨by decide, by decide +kernel⟩⟩
  have hsame : V = s := Except.ok.inj (hV.symm.trans hs)
  have hok : r.ok = true := by rw [hdet.ok, hsame, Report.ok, hA, Option.isSome_some]
  exact ⟨hhash, ⟨V, r, hV, hr, hok, hdet⟩, V', r', hV', hr', hdet'⟩

end FiniteAutomata
