import FiniteAutomata.Proofs.Closure

/-!
# Walks along the edges of a draft

A walk goes from edge to edge, each starting where the one before it ended,
and spells the symbols of its edges that are not silent. A closure along rows
is what walks along the edges of the rows lead to
(`contains_closure_iff_walk`).
-/

namespace FiniteAutomata

inductive Walk (ts : List Transition) : Value → List Transition → Value → Prop
  | stay {p q : Value} : (p == q) = true → Walk ts p [] q
  | go {p q : Value} {t : Transition} {es : List Transition} :
      t ∈ ts → (p == t.source) = true → Walk ts t.target es q → Walk ts p (t :: es) q

/-- The symbols read along edges; a silent edge reads none. -/
def spelled (es : List Transition) : List Value := (es.filter fun t => !t.isEpsilon).map Transition.symbol

/-- A walk from the initial state spells the word. -/
def Draft.Leads (d : Draft) (w : List Value) (q : Value) : Prop :=
  ∃ es, Walk d.transitions d.initial es q ∧ (spelled es == w) = true

namespace Walk

variable {ts : List Transition} {p q r : Value} {es fs : List Transition}

theorem congr_left (h : Walk ts p es q) {p' : Value} (hp : (p' == p) = true) : Walk ts p' es q := by
  cases h with
  | stay h => exact stay (BEq.trans hp h)
  | go ht hs h => exact go ht (BEq.trans hp hs) h

theorem congr_right (h : Walk ts p es q) {q' : Value} (hq : (q == q') = true) : Walk ts p es q' := by
  induction h with
  | stay h => exact stay (BEq.trans h hq)
  | go ht hs _ ih => exact go ht hs (ih hq)

theorem append (h : Walk ts p es q) (h' : Walk ts q fs r) : Walk ts p (es ++ fs) r := by
  induction h with
  | stay h => exact h'.congr_left h
  | go ht hs _ ih => exact go ht hs (ih h')

theorem single {t : Transition} (ht : t ∈ ts) (hp : (p == t.source) = true) (hq : (t.target == q) = true) :
    Walk ts p [t] q := go ht hp (stay hq)

theorem mem (h : Walk ts p es q) : ∀ e ∈ es, e ∈ ts := by
  induction h with
  | stay _ => intro e he; cases he
  | go ht _ _ ih =>
    intro e he
    rcases List.mem_cons.mp he with rfl | he
    · exact ht
    · exact ih e he

theorem filter_iff {keep : Transition → Bool} :
    Walk (ts.filter keep) p es q ↔ Walk ts p es q ∧ ∀ e ∈ es, keep e = true := by
  constructor
  · intro h
    refine ⟨?_, fun e he => (List.mem_filter.mp (h.mem e he)).2⟩
    induction h with
    | stay h => exact stay h
    | go ht hs _ ih => exact go (List.mem_filter.mp ht).1 hs ih
  · intro ⟨h, hk⟩
    induction h with
    | stay h => exact stay h
    | go ht hs _ ih =>
      obtain ⟨hkt, hk⟩ := List.forall_mem_cons.mp hk
      exact go (List.mem_filter.mpr ⟨ht, hkt⟩) hs (ih hk)

theorem exists_of_equal_edges {us : List Transition} (hus : ∀ t ∈ ts, ∃ u ∈ us, (t == u) = true)
    (h : Walk ts p es q) : ∃ fs, Walk us p fs q := by
  induction h with
  | stay h => exact ⟨[], stay h⟩
  | go ht hs _ ih =>
    obtain ⟨u, hu, heq⟩ := hus _ ht
    obtain ⟨hsource, -, htarget⟩ := Transition.beq_iff.mp heq
    obtain ⟨fs, hfs⟩ := ih
    exact ⟨u :: fs, go hu (BEq.trans hs hsource) (hfs.congr_left (BEq.symm htarget))⟩

end Walk

/-! ## Spelling -/

@[simp]
theorem spelled_nil : spelled [] = [] := rfl

theorem spelled_cons_silent {t : Transition} (h : t.isEpsilon = true) (es : List Transition) :
    spelled (t :: es) = spelled es := by
  simp [spelled, h]

theorem spelled_cons_read {t : Transition} (h : t.isEpsilon = false) (es : List Transition) :
    spelled (t :: es) = t.symbol :: spelled es := by
  simp [spelled, h]

theorem spelled_append (es fs : List Transition) : spelled (es ++ fs) = spelled es ++ spelled fs := by
  simp [spelled]

theorem spelled_eq_nil_iff {es : List Transition} : spelled es = [] ↔ ∀ e ∈ es, e.isEpsilon = true := by
  simp [spelled]

theorem mem_spelled {es : List Transition} {a : Value} (h : a ∈ spelled es) :
    ∃ t ∈ es, t.isEpsilon = false ∧ t.symbol = a := by
  obtain ⟨t, ht, rfl⟩ := List.mem_map.mp h
  obtain ⟨ht, he⟩ := List.mem_filter.mp ht
  exact ⟨t, ht, by simpa using he, rfl⟩

theorem list_beq_nil_iff {xs : List Value} : (xs == []) = true ↔ xs = [] := by
  cases xs with
  | nil => simp
  | cons x xs =>
    constructor
    · intro h; cases h
    · intro h; cases h

theorem Walk.exists_read {ts : List Transition} {p q a : Value} {es : List Transition} {w : List Value}
    (h : Walk ts p es q) (hw : (spelled es == a :: w) = true) :
    ∃ es₁ t es₂, Walk (ts.filter Transition.isEpsilon) p es₁ t.source ∧ t ∈ ts ∧ t.isEpsilon = false ∧
      (t.symbol == a) = true ∧ Walk ts t.target es₂ q ∧ (spelled es₂ == w) = true := by
  induction h with
  | stay _ => cases hw
  | @go p q t es ht hs h ih =>
    by_cases he : t.isEpsilon = true
    · rw [spelled_cons_silent he] at hw
      obtain ⟨es₁, t', es₂, h₁, ht', he', ha, h₂, hw'⟩ := ih hw
      exact ⟨t :: es₁, t', es₂, .go (List.mem_filter.mpr ⟨ht, he⟩) hs h₁, ht', he', ha, h₂, hw'⟩
    · have he : t.isEpsilon = false := by simpa using he
      rw [spelled_cons_read he, list_beq_cons_iff] at hw
      exact ⟨[], t, es, .stay hs, ht, he, hw.1, h, hw.2⟩

/-! ## Closures -/

section
variable {rows : Rows Value} {ts : List Transition}
variable (hrows : ∀ q r, (rows.targets q).contains r = true ↔
  ∃ t ∈ ts, (t.source == q) = true ∧ (t.target == r) = true)
include hrows

theorem walk_of_reflTransGen {p q : Value} (h : Relation.ReflTransGen rows.Leads p q) : ∃ es, Walk ts p es q := by
  induction h with
  | refl => exact ⟨[], .stay BEq.rfl⟩
  | tail _ hstep ih =>
    obtain ⟨es, hes⟩ := ih
    obtain ⟨t, ht, hs, hr⟩ := (hrows _ _).mp hstep
    exact ⟨es ++ [t], hes.append (.single ht (BEq.symm hs) hr)⟩

theorem contains_of_walk {qs : List Value} (hqs : rows.Keeps qs) {p q : Value} {es : List Transition}
    (h : Walk ts p es q) (hp : qs.contains p = true) : qs.contains q = true := by
  induction h with
  | stay h => exact contains_of_beq hp h
  | go ht hs _ ih => exact ih (hqs _ _ hp ((hrows _ _).mpr ⟨_, ht, BEq.symm hs, BEq.rfl⟩))

theorem contains_closure_iff_walk {starts : List Value} {q : Value} :
    (closure rows starts).contains q = true ↔ ∃ p, starts.contains p = true ∧ ∃ es, Walk ts p es q := by
  constructor
  · intro h
    obtain ⟨p, hp, hpath⟩ := contains_closure_iff.mp h
    exact ⟨p, hp, walk_of_reflTransGen hrows hpath⟩
  · intro ⟨p, hp, es, hes⟩
    refine contains_of_walk hrows (keeps_closure rows starts) hes ?_
    exact subsetOf_iff_contains.mp (subsetOf_closure rows starts) p hp

end

theorem contains_reachableBy_iff_walk {ts : List Transition} {start q : Value} :
    (reachableBy ts start).contains q = true ↔ ∃ es, Walk ts start es q := by
  rw [reachableBy, reachable, contains_closure_iff_walk fun _ _ => contains_targets_adjacency_iff]
  constructor
  · intro ⟨p, hp, es, hes⟩
    exact ⟨es, hes.congr_left (by simpa [BEq.comm] using hp)⟩
  · intro ⟨es, hes⟩
    exact ⟨start, by simp, es, hes⟩

end FiniteAutomata
