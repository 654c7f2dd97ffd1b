import FiniteAutomata.Proofs.Sampled.Axes
import FiniteAutomata.Proofs.Tables

/-!
# Sampled edges

Edges are drawn source by source, each group within the bounds on its size.
Under the deterministic kind only the first edge under each key is kept, and
what is filled in later is under keys that were left, so no key occurs twice
(`gives_allEdges`).
-/

namespace FiniteAutomata

def Draft.outgoing (d : Draft) (q : Value) : List Transition := d.transitions.filter fun t => t.source == q

/-! ## Groups of edges -/

section
variable {ts us : List Transition} {groups : List (Value × List Transition)}

theorem isDistinct_keys_of_symbols (h : IsDistinct (ts.map Transition.symbol)) : IsDistinct (ts.map Transition.key) := by
  rw [IsDistinct, List.pairwise_map] at h ⊢
  apply h.imp
  intro t u htu
  simp [Transition.key_beq, htu]

theorem isDistinct_keys_append (hts : IsDistinct (ts.map Transition.key)) (hus : IsDistinct (us.map Transition.key))
    (hapart : ∀ t ∈ ts, ∀ u ∈ us, (t.key == u.key) = false) : IsDistinct ((ts ++ us).map Transition.key) := by
  rw [List.map_append]
  refine List.pairwise_append.mpr ⟨hts, hus, ?_⟩
  simpa using hapart

theorem filter_source_eq_nil {source q : Value} (hts : ∀ t ∈ ts, t.source = source) (hne : (source == q) = false) :
    ts.filter (fun t => t.source == q) = [] := by
  apply List.filter_eq_nil_iff.mpr
  intro t ht
  simp [hts t ht, hne]

section
variable (hsource : ∀ g ∈ groups, ∀ t ∈ g.2, t.source = g.1) (hgroups : IsDistinct (groups.map Prod.fst))
include hsource hgroups

theorem isDistinct_keys_flatMap (hsymbols : ∀ g ∈ groups, IsDistinct (g.2.map Transition.symbol)) :
    IsDistinct ((groups.flatMap Prod.snd).map Transition.key) := by
  rw [List.map_flatMap, IsDistinct, List.pairwise_flatMap]
  refine ⟨fun g hg => isDistinct_keys_of_symbols (hsymbols g hg), ?_⟩
  apply (List.pairwise_map.mp hgroups).imp_of_mem
  intro g g' hg hg' hapart
  simp only [List.forall_mem_map]
  intro t ht u hu
  simp [Transition.key_beq, hsource g hg t ht, hsource g' hg' u hu, hapart]

theorem filter_source_eq {g : Value × List Transition} (h : g ∈ groups) :
    (groups.flatMap Prod.snd).filter (fun t => t.source == g.1) = g.2 := by
  induction groups with
  | nil => cases h
  | cons g' groups ih =>
    obtain ⟨hg', hsource'⟩ := List.forall_mem_cons.mp hsource
    obtain ⟨hapart, hgroups⟩ := List.pairwise_cons.mp hgroups
    rw [List.flatMap_cons, List.filter_append]
    rcases List.mem_cons.mp h with rfl | h
    · have hown : g.2.filter (fun t => t.source == g.1) = g.2 := by
        apply List.filter_eq_self.mpr
        intro t ht
        simp [hg' t ht]
      have hothers : (groups.flatMap Prod.snd).filter (fun t => t.source == g.1) = [] := by
        rw [List.filter_flatMap, List.flatMap_eq_nil_iff]
        intro g' hg'
        exact filter_source_eq_nil (hsource' g' hg') (BEq.symm_false (hapart _ (List.mem_map_of_mem hg')))
      rw [hown, hothers, List.append_nil]
    · rw [filter_source_eq_nil hg' (hapart _ (List.mem_map_of_mem h)), List.nil_append]
      exact ih hsource' hgroups h

end

end

namespace Sampling

/-! ## Final states -/

theorem gives_keepEach (p : Binary64) (qs : List Value) : (keepEach p qs).Gives (·.Sublist qs) := by
  induction qs with
  | nil => exact gives_pure (List.Sublist.refl _)
  | cons q qs ih =>
    refine gives_unit.bind fun u _ => ih.bind fun kept hkept => gives_pure ?_
    by_cases hu : u.lt p = true
    · rw [if_pos hu]
      exact hkept.cons_cons q
    · rw [if_neg hu]
      exact hkept.cons q

theorem gives_pick_one {qs : List Value} (h : qs ≠ []) : (pick qs 1).Gives fun ks => ks ≠ [] ∧ ks.Sublist qs := by
  unfold pick
  rw [if_neg (by omega)]
  by_cases hlength : qs.length ≤ (1 : Int).toNat
  · rw [if_pos hlength]
    exact gives_pure ⟨h, List.Sublist.refl _⟩
  · rw [if_neg hlength]
    refine gives_draw.bind fun d _ => gives_pure ⟨by simp, ?_⟩
    exact List.singleton_sublist.mpr (getD_emod_mem h d.number)

theorem gives_finalStates (p : Binary64) {states : List Value} (h : states ≠ []) :
    (finalStates p states).Gives fun finals => finals ≠ [] ∧ finals.Sublist states := by
  refine (gives_keepEach p states).bind fun kept hkept => ?_
  by_cases hempty : kept.isEmpty = true
  · rw [if_pos hempty]
    exact gives_pick_one h
  · rw [if_neg hempty]
    exact gives_pure ⟨by simpa using hempty, hkept⟩

/-! ## Edges -/

/-- A symbol that can be drawn: a silent one with some probability, and any
other one unless all are silent. -/
inductive DrawnSymbol (kind : Kind) (alphabet : List Value) (p : Binary64) : Value → Prop
  | silent : kind = .epsilonNfa → p.same (.finite 0) = false → DrawnSymbol kind alphabet p FiniteAutomata.epsilon
  | read {a : Value} : a ∈ alphabet → (kind = .epsilonNfa → p.same (.finite 1) = false) → DrawnSymbol kind alphabet p a

structure DrawnEdge (kind : Kind) (states alphabet : List Value) (p : Binary64) (t : Transition) : Prop where
  target : t.target ∈ states
  symbol : DrawnSymbol kind alphabet p t.symbol

variable {kind : Kind} {states alphabet : List Value} {p : Binary64}

theorem DrawnSymbol.silent_of_beq {a : Value} (h : DrawnSymbol kind alphabet p a)
    (hreserved : ∀ b ∈ alphabet, (b == FiniteAutomata.epsilon) = false) (ha : (a == FiniteAutomata.epsilon) = true) :
    kind = .epsilonNfa ∧ p.same (.finite 0) = false := by
  cases h with
  | silent hk hp => exact ⟨hk, hp⟩
  | read hmem _ =>
    rw [hreserved a hmem] at ha
    cases ha

theorem DrawnSymbol.read_of_beq {a : Value} (h : DrawnSymbol kind alphabet p a)
    (ha : (a == FiniteAutomata.epsilon) = false) : a ∈ alphabet ∧ (kind = .epsilonNfa → p.same (.finite 1) = false) := by
  cases h with
  | silent _ _ => cases (show (FiniteAutomata.epsilon == FiniteAutomata.epsilon) = true from BEq.rfl).symm.trans ha
  | read hmem hp => exact ⟨hmem, hp⟩

theorem gives_edgeSymbol (h : alphabet ≠ []) :
    (edgeSymbol kind alphabet p).Gives (DrawnSymbol kind alphabet p) := by
  unfold edgeSymbol
  by_cases hk : kind = .epsilonNfa
  · rw [if_pos hk]
    refine gives_unit.bind ?_
    rintro _ ⟨u, rfl, hlow, hhigh⟩
    by_cases hu : (Binary64.finite u).lt p = true
    · rw [if_pos hu]
      refine gives_pure (.silent hk ?_)
      rw [Bool.eq_false_iff]
      intro hzero
      rw [Binary64.finite_lt_of_same hzero, decide_eq_true_iff] at hu
      exact absurd hlow (Rat.not_le.mpr hu)
    · rw [if_neg hu]
      refine (gives_choose h).mono fun a ha => .read ha fun _ => ?_
      rw [Bool.eq_false_iff]
      intro hone
      rw [Binary64.finite_lt_of_same hone, decide_eq_true_iff] at hu
      exact hu hhigh
  · rw [if_neg hk]
    exact (gives_choose h).mono fun a ha => .read ha fun hk' => absurd hk' hk

section
variable (hstates : states ≠ []) (halphabet : alphabet ≠ [])
include hstates halphabet

theorem gives_edgesFrom (source : Value) (count : Nat) : (edgesFrom kind states alphabet p source count).Gives fun ts =>
    ts.length = count ∧ ∀ t ∈ ts, t.source = source ∧ DrawnEdge kind states alphabet p t := by
  induction count with
  | zero => exact gives_pure ⟨rfl, List.forall_mem_nil _⟩
  | succ count ih =>
    refine (gives_choose hstates).bind fun target htarget => ?_
    refine (gives_edgeSymbol halphabet).bind fun symbol hsymbol => ?_
    refine ih.bind fun others hothers => gives_pure ⟨?_, ?_⟩
    · rw [List.length_cons, hothers.1]
    · exact List.forall_mem_cons.mpr ⟨⟨rfl, htarget, hsymbol⟩, hothers.2⟩

theorem gives_edges {range : Int × Int} (hlow : 0 ≤ range.1) (hrange : range.1 ≤ range.2) (sources : List Value) :
    (edges kind states alphabet range p sources).Gives fun groups => groups.map Prod.fst = sources ∧
      ∀ g ∈ groups, (range.1 ≤ g.2.length ∧ g.2.length ≤ range.2) ∧
        ∀ t ∈ g.2, t.source = g.1 ∧ DrawnEdge kind states alphabet p t := by
  induction sources with
  | nil => exact gives_pure ⟨rfl, List.forall_mem_nil _⟩
  | cons source sources ih =>
    refine (gives_intRange hrange).bind fun count hcount => ?_
    refine (gives_edgesFrom hstates halphabet source _).bind fun own hown => ?_
    refine ih.bind fun others hothers => gives_pure ⟨?_, List.forall_mem_cons.mpr ⟨⟨?_, hown.2⟩, hothers.2⟩⟩
    · rw [List.map_cons, hothers.1]
    · rw [hown.1]
      omega

end

/-! ## Deterministic edges -/

theorem hasMove_eq_contains (own : List Transition) (a : Value) :
    hasMove own a = (own.map Transition.symbol).contains a := by
  rw [List.contains_eq_any_beq, List.any_map]
  simp only [hasMove, Function.comp_def, BEq.comm (a := a)]

def adjoinMove (kept : List Transition) (t : Transition) : List Transition :=
  if hasMove kept t.symbol then kept else kept ++ [t]

theorem map_symbol_adjoinMove (kept : List Transition) (t : Transition) :
    (adjoinMove kept t).map Transition.symbol = adjoin (kept.map Transition.symbol) t.symbol := by
  unfold adjoinMove adjoin
  rw [← hasMove_eq_contains]
  by_cases h : hasMove kept t.symbol = true
  · simp [h]
  · simp [h]

theorem adjoinMove_sublist (kept : List Transition) (t : Transition) : (adjoinMove kept t).Sublist (kept ++ [t]) := by
  unfold adjoinMove
  by_cases h : hasMove kept t.symbol = true
  · simp [h]
  · simp [h]

theorem map_symbol_foldl_adjoinMove (kept ts : List Transition) :
    (ts.foldl adjoinMove kept).map Transition.symbol = adjoinAll (kept.map Transition.symbol) (ts.map Transition.symbol) := by
  induction ts generalizing kept with
  | nil => rfl
  | cons t ts ih => rw [List.foldl_cons, ih, map_symbol_adjoinMove, List.map_cons, adjoinAll_cons]

theorem foldl_adjoinMove_sublist (kept ts : List Transition) : (ts.foldl adjoinMove kept).Sublist (kept ++ ts) := by
  induction ts generalizing kept with
  | nil => simp
  | cons t ts ih =>
    rw [List.foldl_cons, List.append_cons kept t ts]
    exact (ih _).trans ((adjoinMove_sublist kept t).append_right ts)

/-- Of the edges of a source, one stays for every symbol. -/
theorem map_symbol_firstMoves (own : List Transition) :
    (firstMoves own).map Transition.symbol = distinct (own.map Transition.symbol) :=
  map_symbol_foldl_adjoinMove [] own

theorem firstMoves_sublist (own : List Transition) : (firstMoves own).Sublist own := foldl_adjoinMove_sublist [] own

def firstGroups (groups : List (Value × List Transition)) : List (Value × List Transition) :=
  groups.map fun group => (group.1, firstMoves group.2)

theorem map_fst_firstGroups (groups : List (Value × List Transition)) :
    (firstGroups groups).map Prod.fst = groups.map Prod.fst := by
  simp [firstGroups]

theorem exists_of_mem_firstGroups {groups : List (Value × List Transition)} {g : Value × List Transition}
    (h : g ∈ firstGroups groups) : ∃ own, (g.1, own) ∈ groups ∧ g.2 = firstMoves own := by
  obtain ⟨g, hg, rfl⟩ := List.mem_map.mp h
  exact ⟨g.2, hg, rfl⟩

section
variable (hstates : states ≠ [])
include hstates

theorem gives_missingMoves (source : Value) (own : List Transition) (symbols : List Value) :
    (missingMoves states source own symbols).Gives fun ts =>
      (ts.map Transition.symbol).Sublist (symbols.filter fun a => !hasMove own a) ∧
        ∀ t ∈ ts, t.source = source ∧ t.target ∈ states := by
  induction symbols with
  | nil => exact gives_pure ⟨List.Sublist.refl _, List.forall_mem_nil _⟩
  | cons a symbols ih =>
    unfold missingMoves
    by_cases hmove : hasMove own a = true
    · rw [if_pos hmove, List.filter_cons_of_neg (by simp [hmove])]
      exact ih
    · rw [if_neg hmove, List.filter_cons_of_pos (by simp [hmove])]
      refine gives_unit.bind fun u _ => ?_
      by_cases hu : u.lt (.finite (mkRat 1 2)) = true
      · rw [if_pos hu]
        exact ih.mono fun ts hts => ⟨hts.1.cons a, hts.2⟩
      · rw [if_neg hu]
        refine (gives_choose hstates).bind fun target htarget => ?_
        refine ih.bind fun others hothers => gives_pure ⟨?_, ?_⟩
        · exact hothers.1.cons_cons a
        · exact List.forall_mem_cons.mpr ⟨⟨rfl, htarget⟩, hothers.2⟩

theorem gives_allMissingMoves (halphabet : IsDistinct alphabet) {groups : List (Value × List Transition)}
    (hgroups : IsDistinct (groups.map Prod.fst)) : (allMissingMoves states alphabet groups).Gives fun ts =>
      IsDistinct (ts.map Transition.key) ∧ ∀ t ∈ ts, t.target ∈ states ∧ t.symbol ∈ alphabet ∧
        ∃ g ∈ groups, t.source = g.1 ∧ hasMove g.2 t.symbol = false := by
  induction groups with
  | nil => exact gives_pure ⟨List.Pairwise.nil, List.forall_mem_nil _⟩
  | cons g groups ih =>
    obtain ⟨hapart, hgroups⟩ := List.pairwise_cons.mp hgroups
    refine (gives_missingMoves hstates g.1 g.2 alphabet).bind fun added hadded => ?_
    refine (ih hgroups).bind fun others hothers => gives_pure ⟨?_, ?_⟩
    · have hsymbols : IsDistinct (added.map Transition.symbol) :=
        halphabet.sublist (hadded.1.trans List.filter_sublist)
      refine isDistinct_keys_append (isDistinct_keys_of_symbols hsymbols) hothers.1 ?_
      intro t ht u hu
      obtain ⟨g', hg', hu, _⟩ := (hothers.2 u hu).2.2
      simp [Transition.key_beq, (hadded.2 t ht).1, hu, hapart _ (List.mem_map_of_mem hg')]
    · intro t ht
      rcases List.mem_append.mp ht with ht | ht
      · have hsymbol := List.mem_filter.mp (hadded.1.subset (List.mem_map_of_mem ht))
        exact ⟨(hadded.2 t ht).2, hsymbol.1, g, List.mem_cons_self, (hadded.2 t ht).1, by simpa using hsymbol.2⟩
      · obtain ⟨htarget, hsymbol, g', hg', hsource⟩ := hothers.2 t ht
        exact ⟨htarget, hsymbol, g', List.mem_cons_of_mem _ hg', hsource⟩

/-- What is filled in is under keys that no first edge has. -/
theorem gives_deterministicEdges (hdistinct : IsDistinct alphabet) {groups : List (Value × List Transition)}
    (hgroups : IsDistinct (groups.map Prod.fst)) (hsource : ∀ g ∈ groups, ∀ t ∈ g.2, t.source = g.1) :
    (allMissingMoves states alphabet (firstGroups groups)).Gives fun added =>
      IsDistinct (((firstGroups groups).flatMap Prod.snd ++ added).map Transition.key) ∧
        ∀ t ∈ added, t.source ∈ groups.map Prod.fst ∧ t.target ∈ states ∧ t.symbol ∈ alphabet := by
  rw [← map_fst_firstGroups] at hgroups ⊢
  have hsource : ∀ g ∈ firstGroups groups, ∀ t ∈ g.2, t.source = g.1 := by
    intro g hg t ht
    obtain ⟨own, hown, heq⟩ := exists_of_mem_firstGroups hg
    rw [heq] at ht
    exact hsource _ hown t ((firstMoves_sublist own).subset ht)
  have hsymbols : ∀ g ∈ firstGroups groups, IsDistinct (g.2.map Transition.symbol) := by
    intro g hg
    obtain ⟨own, _, heq⟩ := exists_of_mem_firstGroups hg
    rw [heq, map_symbol_firstMoves]
    exact isDistinct_distinct _
  refine (gives_allMissingMoves hstates hdistinct hgroups).mono fun added ⟨hkeys, hadded⟩ => ⟨?_, ?_⟩
  · refine isDistinct_keys_append (isDistinct_keys_flatMap hsource hgroups hsymbols) hkeys ?_
    intro t ht u hu
    obtain ⟨g, hg, ht⟩ := List.mem_flatMap.mp ht
    obtain ⟨_, _, g', hg', hu, hmove⟩ := hadded u hu
    rw [Transition.key_beq, Bool.eq_false_iff, Ne, Bool.and_eq_true]
    intro ⟨hsources, hsame⟩
    -- one source has one group, so the symbol of the edge filled in was taken
    have hgg : g = g' := hgroups.eq_of_map_beq hg hg' (by rw [← hsource g hg t ht, ← hu]; exact hsources)
    have htaken : (g.2.map Transition.symbol).contains t.symbol = true := contains_of_mem (List.mem_map_of_mem ht)
    rw [hasMove_eq_contains, ← hgg, contains_of_beq htaken hsame] at hmove
    cases hmove
  · intro t ht
    obtain ⟨htarget, hsymbol, g, hg, hsource, _⟩ := hadded t ht
    rw [hsource]
    exact ⟨List.mem_map_of_mem hg, htarget, hsymbol⟩

end

/-- Each edge is one that can be drawn. The bounds hold for the edges that
leave a state, or no key occurs twice. -/
theorem gives_allEdges {range : Int × Int} (hstates : states ≠ []) (halphabet : alphabet ≠ []) (hlow : 0 ≤ range.1)
    (hrange : range.1 ≤ range.2) (hapart : IsDistinct states) (hdistinct : IsDistinct alphabet) :
    (allEdges kind states alphabet range p).Gives fun ts =>
      (∀ t ∈ ts, t.source ∈ states ∧ DrawnEdge kind states alphabet p t) ∧
      (kind ≠ .dfa → ∀ q ∈ states, range.1 ≤ (ts.filter fun t => t.source == q).length ∧
        (ts.filter fun t => t.source == q).length ≤ range.2) ∧
      (kind = .dfa → IsDistinct (ts.map Transition.key)) := by
  refine (gives_edges hstates halphabet hlow hrange states).bind fun groups ⟨hsources, hgroups⟩ => ?_
  have hsource : ∀ g ∈ groups, ∀ t ∈ g.2, t.source = g.1 := fun g hg t ht => ((hgroups g hg).2 t ht).1
  have hdrawn : ∀ g ∈ groups, ∀ t ∈ g.2, t.source ∈ states ∧ DrawnEdge kind states alphabet p t := by
    intro g hg t ht
    have hmem : t.source ∈ groups.map Prod.fst := by
      rw [hsource g hg t ht]
      exact List.mem_map_of_mem hg
    rw [hsources] at hmem
    exact ⟨hmem, ((hgroups g hg).2 t ht).2⟩
  rw [← hsources] at hapart
  by_cases hk : kind = .dfa
  · rw [if_pos hk]
    refine (gives_deterministicEdges hstates hdistinct hapart hsource).bind fun added ⟨hkeys, hadded⟩ =>
      gives_pure ⟨?_, fun hne => absurd hk hne, fun _ => hkeys⟩
    intro t ht
    -- the edge was drawn from its source, or it was filled in
    rcases List.mem_append.mp ht with ht | ht
    · obtain ⟨g, hg, ht⟩ := List.mem_flatMap.mp ht
      obtain ⟨own, hown, heq⟩ := exists_of_mem_firstGroups hg
      rw [heq] at ht
      exact hdrawn _ hown t ((firstMoves_sublist own).subset ht)
    · obtain ⟨hsource, htarget, hsymbol⟩ := hadded t ht
      rw [hsources] at hsource
      exact ⟨hsource, htarget, .read hsymbol fun hk' => by rw [hk] at hk'; cases hk'⟩
  · rw [if_neg hk]
    refine gives_pure ⟨?_, fun _ q hq => ?_, fun hk' => absurd hk' hk⟩
    · intro t ht
      obtain ⟨g, hg, ht⟩ := List.mem_flatMap.mp ht
      exact hdrawn g hg t ht
    · rw [← hsources] at hq
      obtain ⟨g, hg, rfl⟩ := List.mem_map.mp hq
      rw [filter_source_eq hsource hapart hg]
      exact (hgroups g hg).1

end Sampling

end FiniteAutomata
