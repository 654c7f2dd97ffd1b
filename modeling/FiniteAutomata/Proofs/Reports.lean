import FiniteAutomata.Proofs.WellFormed

/-!
# Reports

A check under any rules tells a part of one list of issues. Strict rules raise
the warnings of that list to errors and change nothing else
(`findings_strict`), and a check that ends early tells the list up to its
first error (`validate_eq`). So all four checks of a draft are views of the
lenient one that runs to its end (`validate_views`).
-/

namespace FiniteAutomata

namespace Issue

/-! ## Up to the first error -/

/-- The issues up to and including the first error, and all of them when there
is none. -/
inductive CutAtFirstError : List Issue → List Issue → Prop
  | whole {is : List Issue} : (∀ i ∈ is, i.isError = false) → CutAtFirstError is is
  | cut {before after : List Issue} {i : Issue} : (∀ j ∈ before, j.isError = false) → i.isError = true →
      CutAtFirstError (before ++ i :: after) (before ++ [i])

theorem throughFirstError_eq_self {is : List Issue} (h : ∀ i ∈ is, i.isError = false) :
    throughFirstError is = is := by
  induction is with
  | nil => rfl
  | cons i is ih =>
    obtain ⟨hi, his⟩ := List.forall_mem_cons.mp h
    unfold throughFirstError
    rw [hi, ih his]; rfl

theorem throughFirstError_append_cons {before after : List Issue} {i : Issue} (h : ∀ j ∈ before, j.isError = false)
    (hi : i.isError = true) : throughFirstError (before ++ i :: after) = before ++ [i] := by
  induction before with
  | nil =>
    rw [List.nil_append, throughFirstError, if_pos hi]; rfl
  | cons j before ih =>
    obtain ⟨hj, hbefore⟩ := List.forall_mem_cons.mp h
    rw [List.cons_append, throughFirstError, hj, ih hbefore]; rfl

theorem cutAtFirstError_cons {i : Issue} {is told : List Issue} (hi : i.isError = false)
    (h : CutAtFirstError is told) : CutAtFirstError (i :: is) (i :: told) := by
  cases h with
  | whole h => exact .whole (List.forall_mem_cons.mpr ⟨hi, h⟩)
  | @cut before after j h hj => exact @CutAtFirstError.cut (i :: before) _ _ (List.forall_mem_cons.mpr ⟨hi, h⟩) hj

theorem cutAtFirstError_throughFirstError (is : List Issue) : CutAtFirstError is (throughFirstError is) := by
  induction is with
  | nil => exact .whole (List.forall_mem_nil _)
  | cons i is ih =>
    unfold throughFirstError
    by_cases hi : i.isError = true
    · rw [if_pos hi]
      exact @CutAtFirstError.cut [] _ _ (List.forall_mem_nil _) hi
    · rw [if_neg hi]
      exact cutAtFirstError_cons (by simpa using hi) ih

theorem cutAtFirstError_iff {is told : List Issue} : CutAtFirstError is told ↔ told = throughFirstError is := by
  constructor
  · intro h
    cases h with
    | whole h => exact (throughFirstError_eq_self h).symm
    | cut h hi => exact (throughFirstError_append_cons h hi).symm
  · intro h
    rw [h]
    exact cutAtFirstError_throughFirstError is

theorem throughFirstError_append_of_any {is : List Issue} (h : is.any isError = true) (later : List Issue) :
    throughFirstError (is ++ later) = throughFirstError is := by
  induction is with
  | nil => cases h
  | cons i is ih =>
    rw [List.cons_append]
    unfold throughFirstError
    by_cases hi : i.isError = true
    · rw [if_pos hi, if_pos hi]
    · rw [if_neg hi, if_neg hi, ih (by simpa [hi] using h)]

theorem any_isError_throughFirstError (is : List Issue) : (throughFirstError is).any isError = is.any isError := by
  induction is with
  | nil => rfl
  | cons i is ih =>
    unfold throughFirstError
    by_cases hi : i.isError = true
    · simp [hi]
    · simp [hi, ih]

theorem mem_of_mem_throughFirstError {is : List Issue} {i : Issue} (h : i ∈ throughFirstError is) : i ∈ is := by
  generalize htold : throughFirstError is = told at h
  cases cutAtFirstError_iff.mpr htold.symm with
  | whole _ => exact h
  | @cut before after j _ _ =>
    have hprefix : before ++ [j] <+: before ++ j :: after := ⟨after, by rw [List.append_assoc]; rfl⟩
    exact hprefix.subset h

theorem map_about_throughFirstError (id : String) (is : List Issue) :
    (throughFirstError is).map (about id) = throughFirstError (is.map (about id)) := by
  induction is with
  | nil => rfl
  | cons i is ih =>
    have herror : (about id i).isError = i.isError := rfl
    rw [List.map_cons]
    unfold throughFirstError
    rw [herror]
    by_cases hi : i.isError = true
    · rw [if_pos hi, if_pos hi]; rfl
    · rw [if_neg hi, if_neg hi, List.map_cons, ih]

/-! ## Strict rules -/

/-- What is told under this code is a warning under lenient rules. -/
def Code.isLenient : Code → Bool
  | unreachableState => true
  | noFinalStateReachable => true
  | unreachableFinalState => true
  | _ => false

def strictly (i : Issue) : Issue := if i.code.isLenient then { i with severity := .error } else i

theorem about_strictly (id : String) (i : Issue) : (strictly i).about id = strictly (i.about id) := by
  unfold strictly about
  by_cases h : i.code.isLenient = true
  · rw [if_pos h, if_pos h]
  · rw [if_neg h, if_neg h]

theorem IsTold.strictly_eq {i : Issue} {code : Code} {severity : Severity} (h : i.IsTold code severity)
    (hcode : code.isLenient = false) : i.strictly = i := by
  unfold strictly
  rw [h.code, hcode]; rfl

end Issue

theorem Automaton.draft_of_ofDraft? {d : Draft} {A : Automaton} (h : ofDraft? d = some A) : A.draft = d := by
  unfold ofDraft? at h
  split at h
  · cases h; rfl
  · cases h

namespace Draft

variable {d : Draft}

open Issue (strictly throughFirstError)

theorem strictly_finding {code : Issue.Code} (h : code.isLenient = true) (message : String)
    (location : Issue.Location) (state symbol : Value) :
    (finding code (reachSeverity false) message location state symbol).strictly =
      finding code (reachSeverity true) message location state symbol := by
  unfold strictly finding
  rw [if_pos h]; rfl

theorem unreachableStates_strict (live : List Value) :
    d.unreachableStates live true = (d.unreachableStates live false).map strictly := by
  unfold unreachableStates
  rw [List.map_filterMap]
  congr 1
  funext p
  dsimp only
  rw [apply_ite (Option.map strictly), Option.map_some, strictly_finding rfl]
  rfl

theorem unreachableFinals_strict (live : List Value) :
    d.unreachableFinals live true = (d.unreachableFinals live false).map strictly := by
  unfold unreachableFinals
  by_cases hm : meets d.finals live = true
  · rw [if_pos hm, if_pos hm, List.map_filterMap]
    congr 1
    funext p
    dsimp only
    rw [apply_ite (Option.map strictly), Option.map_some, strictly_finding rfl]
    rfl
  · rw [if_neg hm, if_neg hm, List.map_singleton, strictly_finding rfl]

theorem map_strictly_eq_self {is : List Issue} {code : Issue.Code} (hcode : code.isLenient = false)
    (h : ∀ i ∈ is, i.IsTold code .error) : is.map strictly = is := by
  have hself : ∀ i ∈ is, i.strictly = i := fun i hi => (h i hi).strictly_eq hcode
  rw [List.map_congr_left hself, List.map_id']

/-- Strict rules look for the same issues in the same order. -/
theorem findings_strict : d.findings true = (d.findings false).map strictly := by
  simp only [findings_eq_append, List.map_append]
  rw [map_strictly_eq_self rfl fun _ => isTold_of_mem_reservedSymbols,
    map_strictly_eq_self rfl fun _ => isTold_of_mem_undeclared,
    map_strictly_eq_self rfl fun _ => isTold_of_mem_ambiguousMoves]
  cases d.live? with
  | none => rfl
  | some live =>
    simp only [whenKnown]
    rw [unreachableStates_strict, unreachableFinals_strict]

theorem isWarning_of_mem_findings {i : Issue} (h : i ∈ d.findings false) : i.isWarning = i.code.isLenient := by
  have hwarning {code : Issue.Code} (hi : i.IsTold code (reachSeverity false)) (hcode : code.isLenient = true) :
      i.isWarning = i.code.isLenient := by
    rw [hi.code, hcode]
    simp [Issue.isWarning, hi.severity, reachSeverity]
  have herror {code : Issue.Code} (hi : i.IsTold code .error) (hcode : code.isLenient = false) :
      i.isWarning = i.code.isLenient := by
    rw [hi.code, hcode]
    simp [Issue.isWarning, hi.severity]
  simp only [findings_eq_append, List.mem_append] at h
  rcases h with (((h | h) | h) | h) | h
  · exact herror (isTold_of_mem_reservedSymbols h) rfl
  · exact herror (isTold_of_mem_undeclared h) rfl
  · obtain ⟨live, _, h⟩ := mem_whenKnown.mp h
    exact hwarning (isTold_of_mem_unreachableStates h) rfl
  · obtain ⟨live, _, h⟩ := mem_whenKnown.mp h
    rcases isTold_of_mem_unreachableFinals h with h | h
    · exact hwarning h rfl
    · exact hwarning h rfl
  · exact herror (isTold_of_mem_ambiguousMoves h) rfl

/-! ## Stages -/

/-- A check that ends early does so between stages, and tells the issues up to
the first error. -/
theorem runStages_failFast {found : List Issue} {stages : List (List Value × List Issue)}
    (hfound : ∀ i ∈ found, i.isError = false) (h : ∀ stage ∈ stages, checkHashes stage.1 = .ok ()) :
    runStages true found stages = .ok (throughFirstError (found ++ stages.flatMap Prod.snd)) := by
  induction stages generalizing found with
  | nil =>
    rw [List.flatMap_nil, List.append_nil, Issue.throughFirstError_eq_self hfound]; rfl
  | cons stage stages ih =>
    obtain ⟨hashed, told⟩ := stage
    obtain ⟨hstage, hrest⟩ := List.forall_mem_cons.mp h
    unfold runStages
    rw [hstage, List.flatMap_cons, ← List.append_assoc, Bool.true_and]
    by_cases herror : (found ++ told).any Issue.isError = true
    · rw [Issue.throughFirstError_append_of_any herror]
      exact if_pos herror
    · have hnone : ∀ i ∈ found ++ told, i.isError = false := by
        simpa only [List.any_eq_true, not_exists, not_and, Bool.not_eq_true] using herror
      exact (if_neg herror).trans (ih hnone hrest)

/-- The part of a list of issues that a check tells. -/
def told (failFast : Bool) (findings : List Issue) : List Issue :=
  if failFast then throughFirstError findings else findings

theorem any_isError_told (failFast : Bool) (is : List Issue) :
    (told failFast is).any Issue.isError = is.any Issue.isError := by
  cases failFast with
  | false => rfl
  | true => exact Issue.any_isError_throughFirstError is

theorem mem_of_mem_told {failFast : Bool} {is : List Issue} {i : Issue} (h : i ∈ told failFast is) : i ∈ is := by
  cases failFast with
  | false => exact h
  | true => exact Issue.mem_of_mem_throughFirstError h

theorem validate_eq (h : d.isHashable = true) (strict failFast : Bool) :
    d.validate strict failFast = .ok (d.report (told failFast (d.findings strict))) := by
  cases failFast with
  | false => exact validate_of_isHashable h strict
  | true =>
    unfold validate
    rw [checkHashes_eq_ok_of_subset h fun v => mem_labels_of_mem_hashedFirst]
    simp only [runStages_failFast (List.forall_mem_nil _) fun _ => checkHashes_of_mem_stages h, List.nil_append,
      findings, Except.map]
    rfl

theorem automaton?_told (failFast : Bool) (is : List Issue) :
    (d.report (told failFast is)).automaton? = (d.report is).automaton? := by
  unfold report
  rw [any_isError_told]

/-! ## Automata of reports -/

theorem forall_not_isError_iff {is : List Issue} : (∀ i ∈ is, i.isError = false) ↔ is.any Issue.isError = false := by
  rw [List.any_eq_false]
  simp

theorem ok_report_iff (h : d.isHashable = true) {strict : Bool} :
    (d.report (d.findings strict)).ok = true ↔ ∀ i ∈ d.findings strict, i.isError = false := by
  unfold Report.ok report
  constructor
  · intro hok
    by_cases he : (d.findings strict).any Issue.isError = true
    · simp [he] at hok
    · exact forall_not_isError_iff.mpr (by simpa using he)
  · intro hnone
    -- without errors the draft is sound, so nothing else keeps it from being an automaton
    have hsound := isSound_of_forall_not_isError hnone
    simp [forall_not_isError_iff.mp hnone, Automaton.ofDraft?, h, hsound]

theorem draft_of_report {is : List Issue} {A : Automaton} (hA : (d.report is).automaton? = some A) :
    A.draft = d ∧ ∀ i ∈ is, i.isError = false := by
  unfold report at hA
  dsimp only at hA
  by_cases he : is.any Issue.isError = true
  · rw [if_pos he] at hA; cases hA
  · rw [if_neg he] at hA
    exact ⟨Automaton.draft_of_ofDraft? hA, forall_not_isError_iff.mpr (by simpa using he)⟩

/-- Under strict rules every issue is an error, so a draft passes only if
nothing is told about it. -/
theorem forall_not_isError_strict_iff : (∀ i ∈ d.findings true, i.isError = false) ↔ d.findings false = [] := by
  constructor
  · intro h
    rw [findings_strict] at h
    refine List.eq_nil_iff_forall_not_mem.mpr fun i hi => ?_
    have hstrict := h _ (List.mem_map_of_mem hi)
    have hw := isWarning_of_mem_findings hi
    unfold strictly at hstrict
    by_cases hcode : i.code.isLenient = true
    · rw [if_pos hcode] at hstrict; cases hstrict
    · rw [if_neg hcode] at hstrict
      rw [Bool.not_eq_true] at hcode
      rw [hcode] at hw
      revert hw hstrict
      unfold Issue.isWarning Issue.isError
      cases i.severity <;> simp
  · intro h i hi
    rw [findings_strict, h] at hi
    cases hi

theorem issues_of_report {strict : Bool} {A : Automaton} (hA : (d.report (d.findings strict)).automaton? = some A) :
    A.issues = (d.report (d.findings strict)).issues := by
  obtain ⟨hdraft, hnone⟩ := draft_of_report hA
  have hid : A.id = d.id := by rw [A.id_eq, hdraft]
  unfold Automaton.issues report
  rw [hdraft, hid]
  cases strict with
  | false => rfl
  | true => rw [findings_strict, forall_not_isError_strict_iff.mp hnone]; rfl

/-! ## Four checks of one draft -/

theorem cutAtFirstError_report (is : List Issue) :
    Issue.CutAtFirstError (d.report is).issues (d.report (told true is)).issues := by
  show Issue.CutAtFirstError _ ((throughFirstError is).map _)
  rw [Issue.map_about_throughFirstError]
  exact Issue.cutAtFirstError_throughFirstError _

theorem issues_report_strict :
    (d.report (d.findings true)).issues = (d.report (d.findings false)).issues.map Issue.strictly := by
  show (d.findings true).map _ = ((d.findings false).map _).map _
  rw [findings_strict, List.map_map, List.map_map]
  exact List.map_congr_left fun i _ => Issue.about_strictly d.id i

theorem isWarning_of_mem_report {i : Issue} (h : i ∈ (d.report (d.findings false)).issues) :
    i.isWarning = i.code.isLenient := by
  obtain ⟨j, hj, rfl⟩ := List.mem_map.mp h
  have hj := isWarning_of_mem_findings hj
  exact hj

/-- Whatever kind a draft of hashable labels is checked as, one list of issues
decides what all checks tell. Under lenient rules the warnings are exactly the
issues about reachability. Strict rules tell the same list with these raised
to errors, so a draft passes them exactly when it passes the lenient ones
without any issue. Under either rules, a check that ends early tells the list
up to its first error and gives the same automaton, which holds the issues
that were told, or gives none as well. -/
theorem validate_views (d : Draft) (h : d.isHashable = true) (kind? : Option Kind) :
    ∃ full fast : Bool → Report,
      (∀ strict, (d.withKind kind?).validate strict false = .ok (full strict) ∧
        (d.withKind kind?).validate strict true = .ok (fast strict) ∧
        Issue.CutAtFirstError (full strict).issues (fast strict).issues ∧
        (fast strict).automaton? = (full strict).automaton? ∧
        ∀ A, (full strict).automaton? = some A → A.draft = d.withKind kind? ∧
          A.issues = (full strict).issues ∧ A.issues = (fast strict).issues) ∧
      (∀ i ∈ (full false).issues, i.isWarning = i.code.isLenient) ∧
      (full true).issues = (full false).issues.map Issue.strictly ∧
      ((full true).ok = true ↔ (full false).ok = true ∧ (full false).issues = []) := by
  have h : (d.withKind kind?).isHashable = true := h
  generalize d.withKind kind? = d at h
  refine ⟨fun strict => d.report (d.findings strict), fun strict => d.report (told true (d.findings strict)), ?_,
    fun i => isWarning_of_mem_report, issues_report_strict, ?_⟩
  · intro strict
    refine ⟨validate_eq h strict false, validate_eq h strict true, cutAtFirstError_report _, automaton?_told true _,
      fun A hA => ?_⟩
    obtain ⟨hdraft, hnone⟩ := draft_of_report hA
    -- without an error nothing is cut off
    have htold : told true (d.findings strict) = d.findings strict := Issue.throughFirstError_eq_self hnone
    dsimp only
    rw [htold]
    exact ⟨hdraft, issues_of_report hA, issues_of_report hA⟩
  · dsimp only
    rw [ok_report_iff h, ok_report_iff h, forall_not_isError_strict_iff]
    show _ ↔ _ ∧ (d.findings false).map _ = []
    rw [List.map_eq_nil_iff, iff_and_self]
    intro hnil
    rw [hnil]
    exact List.forall_mem_nil _

/-- Nothing leads to the last state, and one state and symbol lead to two
others: a warning stands before an error when this is checked as
deterministic. -/
def branching : Draft :=
  ⟨.nfa, [.int 0, .int 1, .int 2], [.text "a"], .int 0, [.int 1],
    [⟨.int 0, .text "a", .int 0⟩, ⟨.bool false, .text "a", .bool true⟩]⟩

theorem validate_views_branching : branching.isHashable = true ∧
    ∃ lenient strict : Report, (branching.withKind (some .dfa)).validate false true = .ok lenient ∧
      (branching.withKind (some .dfa)).validate true true = .ok strict ∧
      lenient.issues.map Issue.code = [.unreachableState, .nonDeterministic] ∧
      strict.issues.map Issue.code = [.unreachableState] := by
  have h : branching.isHashable = true := by decide
  obtain ⟨full, fast, hviews, -⟩ := validate_views branching h (some .dfa)
  have hcodes (strict : Bool) : (fast strict).issues.map Issue.code =
      (throughFirstError ((branching.withKind (some .dfa)).findings strict)).map Issue.code := by
    obtain ⟨hfull, -, hcut, -⟩ := hviews strict
    have heq := Except.ok.inj ((validate_of_isHashable (d := branching.withKind (some .dfa)) h strict).symm.trans hfull)
    rw [Issue.cutAtFirstError_iff.mp hcut, ← heq]
    show (throughFirstError (List.map _ _)).map _ = _
    rw [← Issue.map_about_throughFirstError, List.map_map]; rfl
  refine ⟨h, fast false, fast true, (hviews false).2.1, (hviews true).2.1, ?_, ?_⟩
  · rw [hcodes]
    decide +kernel
  · rw [hcodes]
    decide +kernel

end Draft

end FiniteAutomata
