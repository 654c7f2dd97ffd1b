import FiniteAutomata.Proofs.Reachability

/-!
# Issues about labels and branching moves

Reserved symbols, undeclared labels and branching moves are errors under all
rules, and each is told once at the place it concerns. Of the edges that
branch under one key the first is told, so these issues are in the order of
their edges (`tellsBranching`). No two issues of a draft share their code and
their place (`errors_located_exactly`).
-/

namespace FiniteAutomata

theorem filterMap_unless {α β : Type} (xs : List α) (p : α → Prop) [DecidablePred p] (f : α → β) :
    (xs.filterMap fun x => if p x then none else some (f x)) = (xs.filter fun x => !decide (p x)).map f := by
  induction xs with
  | nil => rfl
  | cons x xs ih =>
    by_cases hx : p x
    · simp [hx, ih]
    · simp [hx, ih]

theorem nodup_map_of_filter {α β γ : Type} [DecidableEq β] {xs : List α} {f : α → β} {g : α → γ}
    (h : ∀ b, ((xs.filter fun x => f x = b).map g).Nodup) : (xs.map fun x => (f x, g x)).Nodup := by
  refine List.pairwise_map.mpr (List.pairwise_iff_forall_sublist.mpr fun {x y} hxy heq => ?_)
  obtain ⟨hf, hg⟩ := Prod.mk.inj heq
  have hpair : ([x, y].filter fun z => f z = f y) = [x, y] := by simp [hf]
  have hsub := (hxy.filter fun z => decide (f z = f y)).map g
  rw [hpair] at hsub
  exact (List.pairwise_pair.mp (List.Pairwise.sublist hsub (h (f y)))) hg

namespace Draft

variable {d : Draft}

open Issue (ToldAt)

/-! ## Reserved symbols -/

/-- The place holds the marker of silent edges, and no state belongs there. -/
def NamesReserved (d : Draft) (l : Issue.Location) (q : Value) : Prop :=
  ∃ n a, d.alphabet[n]? = some a ∧ (a == epsilon) = true ∧ l = .symbol n ∧ q = .null

theorem toldAt_reservedSymbols : ToldAt d.reservedSymbols .reservedSymbol d.NamesReserved := by
  apply Issue.toldAt_filterMap_zipIdx
  · rintro a n l q ⟨_, rfl, _⟩
    rfl
  · intro a n
    by_cases ha : (a == epsilon) = true
    · simp only [ha, if_true, Option.toList_some, true_and]
      exact Issue.toldAt_singleton rfl
    · simp only [ha, Bool.false_eq_true, if_false, Option.toList_none, false_and]
      exact Issue.toldAt_nil _

theorem toldAt_reservedSymbol (strict : Bool) : ToldAt (d.findings strict) .reservedSymbol d.NamesReserved := by
  apply toldAt_reservedSymbols.of_filter
  rw [filter_findings_of_not_isLenient rfl, filter_of_isTold fun _ => isTold_of_mem_reservedSymbols]
  simp

/-! ## Undeclared labels -/

/-- The place names a state that is not declared, or a label that the edge
there must not have. -/
inductive NamesUndeclared (d : Draft) : Issue.Location → Value → Prop
  | initial : d.states.contains d.initial = false → NamesUndeclared d .initial d.initial
  | final {n : Nat} {q : Value} : d.finals[n]? = some q → d.states.contains q = false → NamesUndeclared d (.final n) q
  | source {n : Nat} {t : Transition} : d.transitions[n]? = some t → d.states.contains t.source = false →
      NamesUndeclared d (.edgePart n .source) t.source
  | target {n : Nat} {t : Transition} : d.transitions[n]? = some t → d.states.contains t.target = false →
      NamesUndeclared d (.edgePart n .target) t.target
  | symbol {n : Nat} {t : Transition} : d.transitions[n]? = some t → ¬ d.Allows t →
      NamesUndeclared d (.edgePart n .symbol) t.source

theorem toldAt_undeclaredState (q : Value) (l : Issue.Location) : ToldAt (d.undeclaredState q l) .undeclaredReference
    fun l' q' => d.states.contains q = false ∧ l' = l ∧ q' = q := Issue.toldAt_ite _ rfl

theorem toldAt_undeclaredSymbol (t : Transition) (n : Nat) : ToldAt (d.undeclaredSymbol t n) .undeclaredReference
    fun l q => ¬ d.Allows t ∧ l = .edgePart n .symbol ∧ q = t.source := by
  rw [← symbolProblem?_eq_none_iff]
  unfold undeclaredSymbol
  cases d.symbolProblem? t with
  | none => exact (Issue.toldAt_nil _).congr (by simp)
  | some message => exact (Issue.toldAt_singleton rfl).congr (by simp [finding])

theorem toldAt_undeclaredInEdge (t : Transition) (n : Nat) : ToldAt (d.undeclaredInEdge t n) .undeclaredReference
    fun l q => ((d.states.contains t.source = false ∧ l = .edgePart n .source ∧ q = t.source) ∨
      (d.states.contains t.target = false ∧ l = .edgePart n .target ∧ q = t.target)) ∨
        (¬ d.Allows t ∧ l = .edgePart n .symbol ∧ q = t.source) := by
  refine ((toldAt_undeclaredState _ _).append (toldAt_undeclaredState _ _) ?_).append (toldAt_undeclaredSymbol t n) ?_
  · rintro l q q' ⟨_, rfl, _⟩ ⟨_, hl, _⟩
    cases hl
  · rintro l q q' (⟨_, rfl, _⟩ | ⟨_, rfl, _⟩) ⟨_, hl, _⟩
    · cases hl
    · cases hl

theorem toldAt_undeclaredFinals : ToldAt (d.finals.zipIdx.flatMap fun (q, n) => d.undeclaredState q (.final n))
    .undeclaredReference fun l q =>
      ∃ n p, d.finals[n]? = some p ∧ d.states.contains p = false ∧ l = .final n ∧ q = p := by
  apply Issue.toldAt_flatMap_zipIdx
  · rintro p n l q ⟨_, rfl, _⟩
    rfl
  · exact fun p n => toldAt_undeclaredState p _

theorem toldAt_undeclaredEdges : ToldAt (d.transitions.zipIdx.flatMap fun (t, n) => d.undeclaredInEdge t n)
    .undeclaredReference fun l q => ∃ n t, d.transitions[n]? = some t ∧
      (((d.states.contains t.source = false ∧ l = .edgePart n .source ∧ q = t.source) ∨
        (d.states.contains t.target = false ∧ l = .edgePart n .target ∧ q = t.target)) ∨
          (¬ d.Allows t ∧ l = .edgePart n .symbol ∧ q = t.source)) := by
  apply Issue.toldAt_flatMap_zipIdx
  · rintro t n l q ((⟨_, rfl, _⟩ | ⟨_, rfl, _⟩) | ⟨_, rfl, _⟩) <;> rfl
  · exact toldAt_undeclaredInEdge

theorem toldAt_undeclared : ToldAt d.undeclared .undeclaredReference d.NamesUndeclared := by
  refine (((toldAt_undeclaredState _ _).append toldAt_undeclaredFinals ?_).append toldAt_undeclaredEdges ?_).congr ?_
  · rintro l q q' ⟨_, rfl, _⟩ ⟨_, _, _, _, hl, _⟩
    cases hl
  · rintro l q q' (⟨_, rfl, _⟩ | ⟨_, _, _, _, rfl, _⟩) ⟨_, _, _, h⟩
    · simp at h
    · simp at h
  · intro l q
    constructor
    · rintro ((⟨h, rfl, rfl⟩ | ⟨n, p, hp, h, rfl, rfl⟩) | ⟨n, t, ht, (⟨h, rfl, rfl⟩ | ⟨h, rfl, rfl⟩) | ⟨h, rfl, rfl⟩⟩)
      · exact .initial h
      · exact .final hp h
      · exact .source ht h
      · exact .target ht h
      · exact .symbol ht h
    · intro h
      cases h with
      | initial h => exact Or.inl (Or.inl ⟨h, rfl, rfl⟩)
      | final hp h => exact Or.inl (Or.inr ⟨_, _, hp, h, rfl, rfl⟩)
      | source ht h => exact Or.inr ⟨_, _, ht, Or.inl (Or.inl ⟨h, rfl, rfl⟩)⟩
      | target ht h => exact Or.inr ⟨_, _, ht, Or.inl (Or.inr ⟨h, rfl, rfl⟩)⟩
      | symbol ht h => exact Or.inr ⟨_, _, ht, Or.inr ⟨h, rfl, rfl⟩⟩

theorem toldAt_undeclaredReference (strict : Bool) :
    ToldAt (d.findings strict) .undeclaredReference d.NamesUndeclared := by
  apply toldAt_undeclared.of_filter
  rw [filter_findings_of_not_isLenient rfl, filter_of_isTold fun _ => isTold_of_mem_undeclared]
  simp

/-! ## Branching moves -/

/-- Edges with the source and symbol lead to different states, and the symbol
is not silent. -/
def Branches (d : Draft) (q a : Value) : Prop :=
  (a == epsilon) = false ∧ ∃ t ∈ d.transitions, ∃ u ∈ d.transitions,
    (t.key == (q, a)) = true ∧ (u.key == (q, a)) = true ∧ (t.target == u.target) = false

/-- The edge at the place is the first one with the source and symbol. -/
def IsFirstUnder (d : Draft) (q a : Value) (n : Nat) : Prop :=
  (∃ t, d.transitions[n]? = some t ∧ (t.key == (q, a)) = true) ∧
    ∀ m < n, ∀ t, d.transitions[m]? = some t → (t.key == (q, a)) = false

/-- The moves that branch are told, each of them once and at its first edge,
in the order of these edges. -/
structure TellsBranching (d : Draft) (is : List Issue) : Prop where
  pairs : ∀ q a, (∃ i ∈ is, i.code = .nonDeterministic ∧ ((i.state, i.symbol) == (q, a)) = true) ↔ d.Branches q a
  once : IsDistinct ((is.filter fun i => i.code = .nonDeterministic).map fun i => (i.state, i.symbol))
  located : ∀ i ∈ is, i.code = .nonDeterministic → ∃ n, i.location = .edge n ∧ d.IsFirstUnder i.state i.symbol n
  rising : ∃ ns : List Nat, ns.Pairwise (· < ·) ∧
    (is.filter fun i => i.code = .nonDeterministic).map Issue.location = ns.map .edge

theorem branches_iff {q a : Value} : d.Branches q a ↔ 1 < ((moves d.transitions).targets (q, a)).length := by
  have hread {t : Transition} (ht : (t.key == (q, a)) = true) : t.isEpsilon = (a == epsilon) :=
    BEq.congr_left (prod_beq_iff.mp ht).2
  rw [← Nat.not_le, length_targets_le_one_iff]
  constructor
  · intro ⟨ha, t, ht, u, hu, htk, huk, hne⟩ hall
    rw [hall t ht u hu ((hread htk).trans ha) ((hread huk).trans ha) htk huk] at hne
    cases hne
  · intro hnot
    by_contra hnone
    apply hnot
    intro t ht u hu het _ htk huk
    by_contra hne
    exact hnone ⟨(hread htk).symm.trans het, t, ht, u, hu, htk, huk, by simpa using hne⟩

theorem Branches.congr {q q' a a' : Value} (h : d.Branches q a) (hk : ((q, a) == (q', a')) = true) :
    d.Branches q' a' := by
  rw [branches_iff] at h ⊢
  rwa [← Rows.targets_congr _ hk]

/-! ## The rows that branch -/

def branchingRows (d : Draft) : Rows (Value × Value) :=
  (moves d.transitions).filter fun row => !decide (row.2.length ≤ 1)

def ambiguity (d : Draft) (row : (Value × Value) × List Value) : Issue :=
  finding .nonDeterministic .error
    ("Transition (" ++ row.1.1.written ++ ", " ++ row.1.2.written ++ ") has " ++ toString row.2.length ++
      " targets: " ++ (Value.list (Value.canonicalOrder row.2)).written)
    (.edge (d.firstEdge row.1.1 row.1.2)) row.1.1 row.1.2

theorem ambiguousMoves_eq (hk : d.kind = .dfa) : d.ambiguousMoves = d.branchingRows.map d.ambiguity := by
  unfold ambiguousMoves
  rw [if_pos hk]
  exact filterMap_unless (moves d.transitions) (fun row => row.2.length ≤ 1) d.ambiguity

theorem mem_branchingRows {row : (Value × Value) × List Value} :
    row ∈ d.branchingRows ↔ row ∈ moves d.transitions ∧ 1 < row.2.length := by
  simp [branchingRows]

theorem branches_of_mem {row : (Value × Value) × List Value} (h : row ∈ d.branchingRows) :
    d.Branches row.1.1 row.1.2 := by
  obtain ⟨hrow, hlength⟩ := mem_branchingRows.mp h
  rw [branches_iff, Rows.targets_eq_of_mem (oneRowPerKey_moves _) hrow]
  exact hlength

theorem exists_branchingRow {q a : Value} (h : d.Branches q a) : ∃ row ∈ d.branchingRows, (row.1 == (q, a)) = true := by
  rw [branches_iff] at h
  have hne : ((moves d.transitions).targets (q, a)).isEmpty = false := by
    rw [List.isEmpty_eq_false_iff, ← List.length_pos_iff]
    exact Nat.zero_lt_of_lt h
  obtain ⟨row, hrow, hkey, htargets⟩ := Rows.exists_row_of_targets hne
  exact ⟨row, mem_branchingRows.mpr ⟨hrow, htargets ▸ h⟩, hkey⟩

theorem firstEdge_eq_idxOf (d : Draft) (q a : Value) :
    d.firstEdge q a = (d.transitions.map Transition.key).idxOf (q, a) := by
  unfold firstEdge List.idxOf
  rw [List.findIdx_map]
  rfl

theorem isFirstUnder_firstEdge {q a : Value} (h : d.Branches q a) : d.IsFirstUnder q a (d.firstEdge q a) := by
  obtain ⟨_, t, ht, _, _, htk, _⟩ := h
  have hlt : d.firstEdge q a < d.transitions.length := List.findIdx_lt_length_of_exists ⟨t, ht, htk⟩
  refine ⟨⟨_, List.getElem?_eq_getElem hlt, List.findIdx_getElem (w := hlt)⟩, fun m hm u hu => ?_⟩
  obtain ⟨hm', rfl⟩ := List.getElem?_eq_some_iff.mp hu
  exact List.not_of_lt_findIdx hm

theorem pairwise_firstEdge (d : Draft) :
    (d.branchingRows.map fun row => d.firstEdge row.1.1 row.1.2).Pairwise (· < ·) := by
  have hkeys : ((moves d.transitions).map Prod.fst).Pairwise fun k k' =>
      d.firstEdge k.1 k.2 < d.firstEdge k'.1 k'.2 := by
    -- rows are in the order of their first edges, and silent edges have no rows among them
    rw [map_fst_moves]
    simp only [firstEdge_eq_idxOf]
    exact (pairwise_idxOf_distinct _).filter _
  exact List.pairwise_map.mpr ((List.pairwise_map.mp hkeys).filter _)

theorem tellsBranching {is : List Issue} {id : String} (h : (is.filter fun i => i.code = .nonDeterministic) =
    d.branchingRows.map fun row => (d.ambiguity row).about id) : d.TellsBranching is := by
  have hmem (i : Issue) :
      i ∈ is ∧ i.code = .nonDeterministic ↔ ∃ row ∈ d.branchingRows, (d.ambiguity row).about id = i := by
    rw [← Issue.mem_filter_code, h, List.mem_map]
  constructor
  · intro q a
    constructor
    · rintro ⟨i, hi, hcode, hpair⟩
      obtain ⟨row, hrow, rfl⟩ := (hmem i).mp ⟨hi, hcode⟩
      exact (branches_of_mem hrow).congr hpair
    · intro hbranches
      obtain ⟨row, hrow, hkey⟩ := exists_branchingRow hbranches
      obtain ⟨hi, hcode⟩ := (hmem _).mpr ⟨row, hrow, rfl⟩
      exact ⟨_, hi, hcode, hkey⟩
  · rw [h, List.map_map]
    exact List.Pairwise.sublist (List.filter_sublist.map _) (oneRowPerKey_moves d.transitions)
  · intro i hi hcode
    obtain ⟨row, hrow, rfl⟩ := (hmem i).mp ⟨hi, hcode⟩
    exact ⟨_, rfl, isFirstUnder_firstEdge (branches_of_mem hrow)⟩
  · refine ⟨_, d.pairwise_firstEdge, ?_⟩
    rw [h, List.map_map, List.map_map]
    rfl

/-! ## All issues -/

theorem filter_nonDeterministic (d : Draft) (strict : Bool) :
    (d.findings strict).filter (fun i => i.code = .nonDeterministic) = d.ambiguousMoves := by
  rw [filter_findings_of_not_isLenient rfl]
  simp

theorem ambiguousMoves_of_ne (hk : d.kind ≠ .dfa) : d.ambiguousMoves = [] := if_neg hk

theorem nodup_location_ambiguousMoves (d : Draft) : (d.ambiguousMoves.map Issue.location).Nodup := by
  by_cases hk : d.kind = .dfa
  · rw [ambiguousMoves_eq hk, List.map_map]
    have hrising := List.pairwise_map.mp d.pairwise_firstEdge
    refine List.pairwise_map.mpr (hrising.imp fun hlt heq => ?_)
    exact Nat.ne_of_lt hlt (Issue.Location.edge.inj heq)
  · rw [ambiguousMoves_of_ne hk]
    exact List.nodup_nil

theorem nodup_findings (d : Draft) (strict : Bool) : ((d.findings strict).map fun i => (i.code, i.location)).Nodup := by
  apply nodup_map_of_filter
  intro code
  -- nothing is told under the codes about reachability when the initial state is not declared
  have hlenient (hcode : code.isLenient = true) {places : Issue.Location → Value → Prop}
      (h : d.states.contains d.initial = true → ToldAt (d.findings strict) code places) :
      (((d.findings strict).filter fun i => i.code = code).map Issue.location).Nodup := by
    by_cases hinitial : d.states.contains d.initial = true
    · exact (h hinitial).once
    · have hnone : ∀ i ∈ d.findings strict, i.code ≠ code := by
        rintro i hi rfl
        rw [isLenient_eq_false_of_undeclared (by simpa using hinitial) hi] at hcode
        cases hcode
      rw [filter_code_eq_nil hnone]
      exact List.nodup_nil
  cases code with
  | unreadable =>
    rw [filter_findings_of_not_isLenient rfl]
    exact List.nodup_nil
  | reservedSymbol => exact (toldAt_reservedSymbol strict).once
  | undeclaredReference => exact (toldAt_undeclaredReference strict).once
  | unreachableState => exact hlenient rfl fun h => toldAt_unreachableState h strict
  | noFinalStateReachable => exact hlenient rfl fun h => toldAt_noFinalStateReachable h strict
  | unreachableFinalState => exact hlenient rfl fun h => toldAt_unreachableFinalState h strict
  | nonDeterministic =>
    rw [filter_nonDeterministic]
    exact d.nodup_location_ambiguousMoves

/-- What a check that runs to its end tells about labels and branching moves,
of any draft of hashable labels. -/
theorem errors_located_exactly (d : Draft) (h : d.isHashable = true) (kind? : Option Kind) (strict : Bool) :
    ∃ r, (d.withKind kind?).validate strict false = .ok r ∧
      ToldAt r.issues .reservedSymbol (d.withKind kind?).NamesReserved ∧
      ToldAt r.issues .undeclaredReference (d.withKind kind?).NamesUndeclared ∧
      ((d.withKind kind?).kind ≠ .dfa → ∀ i ∈ r.issues, i.code ≠ .nonDeterministic) ∧
      ((d.withKind kind?).kind = .dfa → (d.withKind kind?).TellsBranching r.issues) ∧
      (r.issues.map fun i => (i.code.name, i.location.text)).Nodup := by
  generalize hd : d.withKind kind? = e
  have he : e.isHashable = true := hd ▸ h
  have hfilter : ((e.findings strict).map (Issue.about e.id)).filter (fun i => i.code = .nonDeterministic) =
      e.ambiguousMoves.map (Issue.about e.id) := by
    rw [List.filter_map, ← e.filter_nonDeterministic strict]
    rfl
  refine ⟨_, validate_of_isHashable he strict, (toldAt_reservedSymbol strict).about e.id,
    (toldAt_undeclaredReference strict).about e.id, fun hk i hi hcode => ?_, fun hk => ?_, ?_⟩
  · have hmem := Issue.mem_filter_code.mpr ⟨hi, hcode⟩
    unfold report at hmem
    rw [hfilter, ambiguousMoves_of_ne hk] at hmem
    cases hmem
  · rw [ambiguousMoves_eq hk, List.map_map] at hfilter
    exact tellsBranching hfilter
  · apply Issue.nodup_texts
    unfold report
    rw [List.map_map]
    exact e.nodup_findings strict

/-- The alphabet has the marker, a final state is not declared, and two edges
under one key, written in two ways, lead to different states. -/
def muddle : Draft :=
  ⟨.nfa, [.int 0, .int 1], [epsilon, .int 1], .int 0, [.int 2],
    [⟨.int 0, epsilon, .int 1⟩, ⟨.int 0, .int 1, .int 0⟩, ⟨.bool false, .bool true, .int 1⟩]⟩

theorem errors_located_exactly_muddle : muddle.isHashable = true ∧
    ∃ r, (muddle.withKind (some .dfa)).validate false false = .ok r ∧
      (∃ i ∈ r.issues, i.code = .reservedSymbol ∧ i.location = .symbol 0) ∧
      (∃ i ∈ r.issues, i.code = .undeclaredReference ∧ i.location = .edgePart 0 .symbol) ∧
      ∃ i ∈ r.issues, i.code = .nonDeterministic ∧ i.location = .edge 1 := by
  have h : muddle.isHashable = true := by decide +kernel
  obtain ⟨r, hr, hreserved, hundeclared, _, hbranching, _⟩ := errors_located_exactly muddle h (some .dfa) false
  refine ⟨h, r, hr, ?_, ?_, ?_⟩
  · obtain ⟨i, hi, hcode, hlocation, _⟩ := (hreserved.exact (.symbol 0) .null).mpr ⟨0, epsilon, rfl, BEq.rfl, rfl, rfl⟩
    exact ⟨i, hi, hcode, hlocation⟩
  · have hnames : (muddle.withKind (some .dfa)).NamesUndeclared (.edgePart 0 .symbol) (.int 0) :=
      .symbol (t := ⟨.int 0, epsilon, .int 1⟩) rfl (by simp [Allows, Transition.isEpsilon, withKind])
    obtain ⟨i, hi, hcode, hlocation, _⟩ := (hundeclared.exact _ _).mpr hnames
    exact ⟨i, hi, hcode, hlocation⟩
  · have hbranches : (muddle.withKind (some .dfa)).Branches (.int 0) (.int 1) := branches_iff.mpr (by decide +kernel)
    obtain ⟨i, hi, hcode, hpair⟩ := ((hbranching rfl).pairs _ _).mpr hbranches
    obtain ⟨n, hlocation, ⟨t, ht, htk⟩, hfirst⟩ := (hbranching rfl).located i hi hcode
    refine ⟨i, hi, hcode, ?_⟩
    match n with
    | 0 =>
      cases ht
      cases BEq.trans htk hpair
    | 1 => exact hlocation
    | n + 2 =>
      have hearlier := hfirst 1 (by omega) _ rfl
      exact absurd (BEq.symm hpair) (Bool.eq_false_iff.mp hearlier)

end Draft

end FiniteAutomata
