import FiniteAutomata.Draft.Builder
import FiniteAutomata.Proofs.Readings
import FiniteAutomata.Proofs.Sets

/-!
# Calls of a builder

What a call declares and what it refers to can be told without the builder
(`Call.states`, `Call.edges` and so on). A call is accepted exactly when it
can be iterated and all it puts into the sets of the builder is hashable, and
then it adds just that (`run_perform`). A refused call of one label or edge
adds nothing, but it has set the kind and the initial state already
(`refused_calls_keep_declarations`).
-/

namespace FiniteAutomata

namespace Call

/-! ## What a call gives -/

def givenStates : Call → List Value
  | addState q => [q]
  | addStates qs => qs.members?.getD []
  | _ => []

def givenSymbols : Call → List Value
  | addSymbol a => [a]
  | addSymbols as => as.members?.getD []
  | _ => []

def initials : Call → List Value
  | setInitial q => [q]
  | _ => []

def finals : Call → List Value
  | addFinal q => [q]
  | _ => []

/-- A label that equals the marker becomes the marker. -/
def edges : Call → List Transition
  | addTransition source symbol target => [⟨source, if symbol == epsilon then epsilon else symbol, target⟩]
  | addEpsilon source target => [⟨source, epsilon, target⟩]
  | _ => []

def referredStates (c : Call) : List Value :=
  c.initials ++ c.finals ++ c.edges.flatMap fun t => [t.source, t.target]

def referredSymbols (c : Call) : List Value := (c.edges.filter fun t => !t.isEpsilon).map Transition.symbol

def states (infer : Bool) (c : Call) : List Value := c.givenStates ++ if infer then c.referredStates else []

def symbols (infer : Bool) (c : Call) : List Value := c.givenSymbols ++ if infer then c.referredSymbols else []

/-- All that a call puts into sets. The initial state itself is in none. -/
def hashed (infer : Bool) (c : Call) : List Value :=
  c.states infer ++ c.symbols infer ++ c.finals ++ c.edges.flatMap fun t => [t.source, t.symbol, t.target]

def isIterable : Call → Bool
  | addStates qs => qs.members?.isSome
  | addSymbols as => as.members?.isSome
  | _ => true

/-- The calls that take one label or one edge. -/
def isSingle : Call → Bool
  | addStates _ => false
  | addSymbols _ => false
  | _ => true

structure IsFit (infer : Bool) (c : Call) : Prop where
  iterable : c.isIterable = true
  hashable : ∀ v ∈ c.hashed infer, v.isHashable = true

namespace IsFit

variable {infer : Bool} {c : Call} (h : c.IsFit infer)
include h

theorem states : ∀ q ∈ c.states infer, q.isHashable = true := fun q hq => h.hashable q (by simp [hashed, hq])

theorem symbols : ∀ a ∈ c.symbols infer, a.isHashable = true := fun a ha => h.hashable a (by simp [hashed, ha])

theorem finals : ∀ q ∈ c.finals, q.isHashable = true := fun q hq => h.hashable q (by simp [hashed, hq])

theorem edges : ∀ t ∈ c.edges, ∀ v ∈ [t.source, t.symbol, t.target], v.isHashable = true :=
  fun t ht v hv => h.hashable v (List.mem_append_right _ (List.mem_flatMap.mpr ⟨t, ht, hv⟩))

end IsFit

theorem mem_hashed_iff {infer : Bool} {c : Call} {v : Value} : v ∈ c.hashed infer ↔
    match c with
    | addState q => v = q
    | addStates qs => v ∈ qs.members?.getD []
    | addSymbol a => v = a
    | addSymbols as => v ∈ as.members?.getD []
    | setInitial q => infer = true ∧ v = q
    | addFinal q => v = q
    | addTransition source symbol target =>
      v ∈ [source, if symbol == epsilon then epsilon else symbol, target]
    | addEpsilon source target => v ∈ [source, epsilon, target] := by
  unfold hashed states symbols referredStates referredSymbols
  -- the ends of an edge are in its own set, and when they are inferred among the states as well
  cases c with
  | addTransition source symbol target =>
    by_cases he : (symbol == epsilon) = true
    · cases infer <;> simp [givenStates, givenSymbols, initials, finals, edges, Transition.isEpsilon, he]
      grind
    · cases infer <;> simp [givenStates, givenSymbols, initials, finals, edges, Transition.isEpsilon, he]
      grind
  | addEpsilon source target =>
    cases infer <;> simp [givenStates, givenSymbols, initials, finals, edges, Transition.isEpsilon]
    grind
  | _ => cases infer <;> simp [givenStates, givenSymbols, initials, finals, edges]

end Call

/-! ## Members added in turn -/

section
variable {α : Type} [BEq α]

theorem adjoinAll_append (xs ys zs : List α) : adjoinAll xs (ys ++ zs) = adjoinAll (adjoinAll xs ys) zs :=
  List.foldl_append

end

namespace Builder

variable {α β : Type}

def after (b : Builder) (calls : List Call) : Builder where
  kind := if (calls.flatMap Call.edges).any Transition.isEpsilon then .epsilonNfa else b.kind
  infer := b.infer
  states := adjoinAll b.states (calls.flatMap (Call.states b.infer))
  alphabet := adjoinAll b.alphabet (calls.flatMap (Call.symbols b.infer))
  initial := (calls.flatMap Call.initials).getLast?.or b.initial
  finals := adjoinAll b.finals (calls.flatMap Call.finals)
  transitions := adjoinAll b.transitions (calls.flatMap Call.edges)

theorem after_singleton (b : Builder) (c : Call) : b.after [c] =
    match c with
    | .addState q => { b with states := adjoin b.states q }
    | .addStates qs => { b with states := adjoinAll b.states (qs.members?.getD []) }
    | .addSymbol a => { b with alphabet := adjoin b.alphabet a }
    | .addSymbols as => { b with alphabet := adjoinAll b.alphabet (as.members?.getD []) }
    | .setInitial q =>
      { b with initial := some q, states := adjoinAll b.states (if b.infer then [q] else []) }
    | .addFinal q =>
      { b with finals := adjoin b.finals q, states := adjoinAll b.states (if b.infer then [q] else []) }
    | .addTransition source symbol target =>
      if symbol == epsilon then
        { b with
          kind := .epsilonNfa
          states := adjoinAll b.states (if b.infer then [source, target] else [])
          transitions := adjoin b.transitions ⟨source, epsilon, target⟩ }
      else
        { b with
          states := adjoinAll b.states (if b.infer then [source, target] else [])
          alphabet := adjoinAll b.alphabet (if b.infer then [symbol] else [])
          transitions := adjoin b.transitions ⟨source, symbol, target⟩ }
    | .addEpsilon source target =>
      { b with
        kind := .epsilonNfa
        states := adjoinAll b.states (if b.infer then [source, target] else [])
        transitions := adjoin b.transitions ⟨source, epsilon, target⟩ } := by
  cases c with
  | addTransition source symbol target =>
    by_cases he : (symbol == epsilon) = true
    · simp [after, Call.states, Call.symbols, Call.givenStates, Call.givenSymbols, Call.referredStates,
        Call.referredSymbols, Call.initials, Call.finals, Call.edges, Transition.isEpsilon, adjoinAll, he]
    · simp [after, Call.states, Call.symbols, Call.givenStates, Call.givenSymbols, Call.referredStates,
        Call.referredSymbols, Call.initials, Call.finals, Call.edges, Transition.isEpsilon, adjoinAll, he]
  | _ =>
    simp [after, Call.states, Call.symbols, Call.givenStates, Call.givenSymbols, Call.referredStates,
      Call.referredSymbols, Call.initials, Call.finals, Call.edges, Transition.isEpsilon, adjoinAll]

/-! ## Steps of a call -/

theorem run_bind_of_ok {m : Building α} {f : α → Building β} {b b' : Builder} {x : α} (h : m.run b = .ok x b') :
    (m >>= f).run b = (f x).run b' := by
  rw [EStateM.run_bind, h]

theorem run_bind_of_error {m : Building α} {b b' : Builder} {e : Fault} (h : m.run b = .error e b')
    (f : α → Building β) : (m >>= f).run b = .error e b' := by
  rw [EStateM.run_bind, h]

theorem run_require_ok {r : Except Fault α} {x : α} (h : r = .ok x) (b : Builder) : (require r).run b = .ok x b := by
  rw [h]; rfl

theorem run_require_error {r : Except Fault α} {e : Fault} (h : r = .error e) (b : Builder) :
    (require r).run b = .error e b := by
  rw [h]; rfl

section
variable {v : Value} (f : Builder → Builder)

theorem run_checked (h : v.isHashable = true) (b : Builder) :
    (do require v.checkHash; modify f : Building Unit).run b = .ok () (f b) := by
  rw [Value.checkHash_eq_ok h]; rfl

theorem run_checked_of_not (h : v.isHashable = false) (b : Builder) :
    ∃ e, (do require v.checkHash; modify f : Building Unit).run b = .error e b := by
  obtain ⟨_, he⟩ := Value.checkHash_eq_error h
  exact ⟨_, run_bind_of_error (run_require_error he b) _⟩

end

theorem run_addState {q : Value} (h : q.isHashable = true) (b : Builder) :
    (addState q).run b = .ok () { b with states := adjoin b.states q } := run_checked _ h b

theorem run_addSymbol {a : Value} (h : a.isHashable = true) (b : Builder) :
    (addSymbol a).run b = .ok () { b with alphabet := adjoin b.alphabet a } := run_checked _ h b

theorem run_addState_of_not {q : Value} (h : q.isHashable = false) (b : Builder) :
    ∃ e, (addState q).run b = .error e b := run_checked_of_not _ h b

theorem run_addSymbol_of_not {a : Value} (h : a.isHashable = false) (b : Builder) :
    ∃ e, (addSymbol a).run b = .error e b := run_checked_of_not _ h b

theorem run_each {add : Value → Building Unit} {put : Builder → List Value → Builder} (hnil : ∀ b, put b [] = b)
    (hcons : ∀ b v vs, put (put b [v]) vs = put b (v :: vs))
    (hadd : ∀ v b, v.isHashable = true → (add v).run b = .ok () (put b [v])) {vs : List Value}
    (h : ∀ v ∈ vs, v.isHashable = true) (b : Builder) : (each add vs).run b = .ok () (put b vs) := by
  induction vs generalizing b with
  | nil => rw [hnil]; rfl
  | cons v vs ih =>
    obtain ⟨hv, hvs⟩ := List.forall_mem_cons.mp h
    unfold each
    rw [run_bind_of_ok (hadd v b hv), ih hvs, hcons]

theorem run_each_addState {qs : List Value} (h : ∀ q ∈ qs, q.isHashable = true) (b : Builder) :
    (each addState qs).run b = .ok () { b with states := adjoinAll b.states qs } :=
  @run_each _ (fun b qs => { b with states := adjoinAll b.states qs }) (fun _ => rfl) (fun _ _ _ => rfl)
    (fun _ b hq => run_addState hq b) _ h b

theorem run_each_addSymbol {as : List Value} (h : ∀ a ∈ as, a.isHashable = true) (b : Builder) :
    (each addSymbol as).run b = .ok () { b with alphabet := adjoinAll b.alphabet as } :=
  @run_each _ (fun b as => { b with alphabet := adjoinAll b.alphabet as }) (fun _ => rfl) (fun _ _ _ => rfl)
    (fun _ b ha => run_addSymbol ha b) _ h b

theorem run_inferStates {qs : List Value} {b : Builder} (h : b.infer = true → ∀ q ∈ qs, q.isHashable = true) :
    (inferStates qs).run b = .ok () { b with states := adjoinAll b.states (if b.infer then qs else []) } := by
  show (if b.infer then each addState qs else pure ()).run b = _
  by_cases hinfer : b.infer = true
  · rw [if_pos hinfer, if_pos hinfer, run_each_addState (h hinfer)]
  · rw [if_neg hinfer, if_neg hinfer]; rfl

theorem run_inferSymbol {a : Value} {b : Builder} (h : b.infer = true → a.isHashable = true) :
    (inferSymbol a).run b = .ok () { b with alphabet := adjoinAll b.alphabet (if b.infer then [a] else []) } := by
  show (if b.infer then addSymbol a else pure ()).run b = _
  by_cases hinfer : b.infer = true
  · rw [if_pos hinfer, if_pos hinfer, run_addSymbol (h hinfer)]; rfl
  · rw [if_neg hinfer, if_neg hinfer]; rfl

theorem run_inferStates_of_not {q : Value} {b : Builder} (hinfer : b.infer = true) (h : q.isHashable = false) :
    ∃ e, (inferStates [q]).run b = .error e b := by
  obtain ⟨e, he⟩ := run_addState_of_not h b
  refine ⟨e, ?_⟩
  show (if b.infer then each addState [q] else pure ()).run b = _
  rw [if_pos hinfer]
  exact run_bind_of_error he _

section
variable {t : Transition}

theorem run_addEdge (h : ∀ v ∈ [t.source, t.symbol, t.target], v.isHashable = true) (b : Builder) :
    (addEdge t.source t.symbol t.target).run b = .ok () { b with transitions := adjoin b.transitions t } := by
  have hfixed : ∀ v ∈ [t.source, t.symbol, t.target], v.isMutable = false :=
    fun v hv => Value.isMutable_of_isHashable (h v hv)
  have hread : Transition.read t.record = .ok t :=
    Transition.read_record_eq_ok_iff.mpr ⟨⟨hfixed _ (by simp), hfixed _ (by simp), hfixed _ (by simp)⟩, rfl⟩
  unfold addEdge
  rw [hread]
  refine (run_bind_of_ok (run_require_ok (x := t) rfl b)).trans ?_
  rw [run_bind_of_ok (run_require_ok (checkHashes_eq_ok_iff.mpr h) b)]
  rfl

/-- An edge is refused before it is kept, whether it cannot be read or cannot
be in a set. -/
theorem run_addEdge_of_not {v : Value} (hv : v ∈ [t.source, t.symbol, t.target]) (h : v.isHashable = false)
    (b : Builder) : ∃ e, (addEdge t.source t.symbol t.target).run b = .error e b := by
  unfold addEdge
  cases hread : Transition.read t.record with
  | error ds => exact ⟨.malformed ds, run_bind_of_error (run_require_error rfl b) _⟩
  | ok u =>
    obtain ⟨_, rfl⟩ := Transition.read_record_eq_ok_iff.mp hread
    cases hhash : checkHashes [t.source, t.symbol, t.target] with
    | error e =>
      refine ⟨e, (run_bind_of_ok (run_require_ok (x := t) rfl b)).trans ?_⟩
      exact run_bind_of_error (run_require_error hhash b) _
    | ok _ =>
      rw [checkHashes_eq_ok_iff.mp hhash v hv] at h
      cases h

end

/-! ## Calls -/

theorem forall_ends {source symbol target : Value} (h : ∀ v ∈ [source, symbol, target], v.isHashable = true) :
    ∀ v ∈ [source, target], v.isHashable = true :=
  fun v hv => h v ((List.Sublist.cons_cons source (List.sublist_cons_self symbol [target])).subset hv)

theorem run_addEpsilon {source target : Value} {b : Builder}
    (h : ∀ v ∈ [source, epsilon, target], v.isHashable = true) : (addEpsilon source target).run b = .ok ()
      { b with
        kind := .epsilonNfa
        states := adjoinAll b.states (if b.infer then [source, target] else [])
        transitions := adjoin b.transitions ⟨source, epsilon, target⟩ } := by
  refine (run_bind_of_ok (run_addEdge (t := ⟨source, epsilon, target⟩) h { b with kind := .epsilonNfa })).trans ?_
  rw [run_inferStates fun _ => forall_ends h]

theorem run_addTransition {source symbol target : Value} {b : Builder} (he : ¬ (symbol == epsilon) = true)
    (h : ∀ v ∈ [source, symbol, target], v.isHashable = true) : (addTransition source symbol target).run b = .ok ()
      { b with
        states := adjoinAll b.states (if b.infer then [source, target] else [])
        alphabet := adjoinAll b.alphabet (if b.infer then [symbol] else [])
        transitions := adjoin b.transitions ⟨source, symbol, target⟩ } := by
  unfold addTransition
  rw [if_neg he, run_bind_of_ok (run_addEdge (t := ⟨source, symbol, target⟩) h b),
    run_bind_of_ok (run_inferStates fun _ => forall_ends h)]
  exact run_inferSymbol fun _ => h symbol (by simp)

theorem members_eq_ok_iff {v : Value} {xs : List Value} : v.members = .ok xs ↔ v.members? = some xs := by
  unfold Value.members
  cases v.members? with
  | none => simp
  | some ys => simp

theorem members_eq_ok {v : Value} (h : v.members?.isSome = true) : v.members = .ok (v.members?.getD []) := by
  obtain ⟨xs, hxs⟩ := Option.isSome_iff_exists.mp h
  rw [members_eq_ok_iff, hxs]; rfl

theorem run_perform {c : Call} {b : Builder} (h : c.IsFit b.infer) : (perform c).run b = .ok () (b.after [c]) := by
  rw [after_singleton]
  cases c with
  | addState q => exact run_addState (h.states q (List.mem_append_left _ (List.mem_singleton.mpr rfl))) b
  | addStates qs =>
    have hqs : ∀ q ∈ qs.members?.getD [], q.isHashable = true := fun q hq => h.states q (List.mem_append_left _ hq)
    exact (run_bind_of_ok (run_require_ok (members_eq_ok h.iterable) b)).trans (run_each_addState hqs b)
  | addSymbol a => exact run_addSymbol (h.symbols a (List.mem_append_left _ (List.mem_singleton.mpr rfl))) b
  | addSymbols as =>
    have has : ∀ a ∈ as.members?.getD [], a.isHashable = true := fun a ha => h.symbols a (List.mem_append_left _ ha)
    exact (run_bind_of_ok (run_require_ok (members_eq_ok h.iterable) b)).trans (run_each_addSymbol has b)
  | setInitial q =>
    have hq (hinfer : b.infer = true) : ∀ v ∈ [q], v.isHashable = true := by
      intro v hv
      apply h.states v
      rwa [Call.states, if_pos hinfer]
    exact run_inferStates (b := { b with initial := some q }) hq
  | addFinal q =>
    have hq : ∀ v ∈ [q], v.isHashable = true := h.finals
    refine (run_bind_of_ok (run_require_ok (Value.checkHash_eq_ok (hq q (List.mem_singleton.mpr rfl))) b)).trans ?_
    exact run_inferStates (b := { b with finals := adjoin b.finals q }) fun _ => hq
  | addTransition source symbol target =>
    have hlabels := h.edges _ (List.mem_singleton.mpr rfl)
    show (addTransition source symbol target).run b = _
    dsimp only
    by_cases he : (symbol == epsilon) = true
    · rw [if_pos he] at hlabels
      rw [if_pos he, addTransition, if_pos he]
      exact run_addEpsilon hlabels
    · rw [if_neg he] at hlabels
      rw [if_neg he]
      exact run_addTransition he hlabels
  | addEpsilon source target => exact run_addEpsilon (h.edges _ (List.mem_singleton.mpr rfl))

/-! ## Refused calls -/

theorem run_addEpsilon_of_not {source target v : Value} (hv : v ∈ [source, epsilon, target]) (h : v.isHashable = false)
    (b : Builder) : ∃ e, (addEpsilon source target).run b = .error e { b with kind := .epsilonNfa } := by
  obtain ⟨e, he⟩ := run_addEdge_of_not (t := ⟨source, epsilon, target⟩) hv h { b with kind := .epsilonNfa }
  exact ⟨e, run_bind_of_error he _⟩

/-- A refused call adds nothing. The kind and the initial state have been set
before anything was put into a set. -/
theorem run_perform_of_not {c : Call} {b : Builder} (hc : c.isSingle = true) {v : Value} (hv : v ∈ c.hashed b.infer)
    (h : v.isHashable = false) : ∃ e, (perform c).run b =
      .error e { b with kind := (b.after [c]).kind, initial := (b.after [c]).initial } := by
  rw [after_singleton]
  cases c with
  | addState q =>
    obtain rfl := Call.mem_hashed_iff.mp hv
    exact run_addState_of_not h b
  | addStates qs => cases hc
  | addSymbol a =>
    obtain rfl := Call.mem_hashed_iff.mp hv
    exact run_addSymbol_of_not h b
  | addSymbols as => cases hc
  | setInitial q =>
    obtain ⟨hinfer, rfl⟩ := Call.mem_hashed_iff.mp hv
    exact run_inferStates_of_not (b := { b with initial := some v }) hinfer h
  | addFinal q =>
    obtain rfl := Call.mem_hashed_iff.mp hv
    obtain ⟨_, he⟩ := Value.checkHash_eq_error h
    exact ⟨_, run_bind_of_error (run_require_error he b) _⟩
  | addTransition source symbol target =>
    have hlabels : v ∈ [source, if symbol == epsilon then epsilon else symbol, target] := Call.mem_hashed_iff.mp hv
    show ∃ e, (addTransition source symbol target).run b = _
    dsimp only
    by_cases he : (symbol == epsilon) = true
    · rw [if_pos he] at hlabels
      rw [if_pos he, addTransition, if_pos he]
      exact run_addEpsilon_of_not hlabels h b
    · rw [if_neg he] at hlabels
      rw [if_neg he, addTransition, if_neg he]
      obtain ⟨e, hrun⟩ := run_addEdge_of_not (t := ⟨source, symbol, target⟩) hlabels h b
      exact ⟨e, run_bind_of_error hrun _⟩
  | addEpsilon source target =>
    exact run_addEpsilon_of_not (Call.mem_hashed_iff.mp hv) h b

theorem isIterable_of_isSingle {c : Call} (h : c.isSingle = true) : c.isIterable = true := by
  cases c with
  | addStates qs => cases h
  | addSymbols as => cases h
  | _ => rfl

theorem isFit_or_exists {c : Call} (h : c.isSingle = true) (infer : Bool) :
    c.IsFit infer ∨ ∃ v ∈ c.hashed infer, v.isHashable = false := by
  by_cases hnot : ∃ v ∈ c.hashed infer, v.isHashable = false
  · exact Or.inr hnot
  · refine Or.inl ⟨isIterable_of_isSingle h, fun v hv => ?_⟩
    rw [← Bool.not_eq_false]
    exact fun hfalse => hnot ⟨v, hv, hfalse⟩

theorem refused_iff {c : Call} (hc : c.isSingle = true) (b : Builder) :
    (∃ e b', (perform c).run b = .error e b') ↔ ∃ v ∈ c.hashed b.infer, v.isHashable = false := by
  constructor
  · intro ⟨e, b', hrun⟩
    rcases isFit_or_exists hc b.infer with hfit | hnot
    · rw [run_perform hfit] at hrun
      cases hrun
    · exact hnot
  · intro ⟨v, hv, h⟩
    obtain ⟨e, hrun⟩ := run_perform_of_not hc hv h
    exact ⟨e, _, hrun⟩

theorem eq_of_refused {c : Call} {b b' : Builder} {e : Fault} (hc : c.isSingle = true)
    (h : (perform c).run b = .error e b') :
    b' = { b with kind := (b.after [c]).kind, initial := (b.after [c]).initial } := by
  obtain ⟨v, hv, hnot⟩ := (refused_iff hc b).mp ⟨e, b', h⟩
  obtain ⟨e', hrun⟩ := run_perform_of_not hc hv hnot
  rw [h] at hrun
  cases hrun; rfl

theorem kind_after_singleton_eq_iff {b : Builder} {c : Call} :
    (b.after [c]).kind = b.kind ↔ ∀ t ∈ c.edges, t.isEpsilon = true → b.kind = .epsilonNfa := by
  have hkind : (b.after [c]).kind = if c.edges.any Transition.isEpsilon then .epsilonNfa else b.kind := by simp [after]
  rw [hkind]
  by_cases hany : c.edges.any Transition.isEpsilon = true
  · rw [if_pos hany]
    obtain ⟨t, ht, he⟩ := List.any_eq_true.mp hany
    exact ⟨fun heq _ _ _ => heq.symm, fun hall => (hall t ht he).symm⟩
  · rw [if_neg hany]
    exact ⟨fun _ t ht he => absurd (List.any_eq_true.mpr ⟨t, ht, he⟩) hany, fun _ => rfl⟩

theorem initial_after_singleton_eq_iff {b : Builder} {c : Call} :
    (b.after [c]).initial = b.initial ↔ ∀ q ∈ c.initials, b.initial = some q := by
  cases c with
  | setInitial q =>
    rw [after_singleton]
    show some q = b.initial ↔ ∀ v ∈ [q], b.initial = some v
    rw [List.forall_mem_singleton]
    exact eq_comm
  | _ => simp [after, Call.initials]

/-- A call of one label or edge is refused exactly when something it puts into
a set is not hashable. Then nothing is added, but the kind and the initial
state are those of an accepted call. So the builder stays as it was unless the
call would have given it another initial state or the kind with silent
moves. -/
theorem refused_calls_keep_declarations (b : Builder) (c : Call) (hc : c.isSingle = true) :
    ((∃ e b', (perform c).run b = .error e b') ↔ ∃ v ∈ c.hashed b.infer, v.isHashable = false) ∧
    ∀ e b', (perform c).run b = .error e b' →
      b' = { b with kind := (b.after [c]).kind, initial := (b.after [c]).initial } ∧
      (b' = b ↔ (∀ t ∈ c.edges, t.isEpsilon = true → b.kind = .epsilonNfa) ∧ ∀ q ∈ c.initials, b.initial = some q) := by
  refine ⟨refused_iff hc b, fun e b' h => ?_⟩
  have hb' := eq_of_refused hc h
  refine ⟨hb', ?_⟩
  rw [hb', ← kind_after_singleton_eq_iff, ← initial_after_singleton_eq_iff]
  constructor
  · intro heq
    have hkind := congrArg Builder.kind heq
    have hinitial := congrArg Builder.initial heq
    exact ⟨hkind, hinitial⟩
  · intro ⟨hkind, hinitial⟩
    rw [hkind, hinitial]

/-- The target of the silent edge holds a list. -/
def nested : Call := .addTransition (.int 0) epsilon (.tuple [.list []])

theorem refused_calls_keep_declarations_nested : nested.isSingle = true ∧
    ∃ e b', (perform nested).run (start .dfa true) = .error e b' ∧ b' ≠ start .dfa true ∧ b'.states = [] := by
  have h : nested.isSingle = true := rfl
  have htarget : .tuple [.list []] ∈ nested.hashed true := Call.mem_hashed_iff.mpr (.tail _ (.tail _ (.head _)))
  obtain ⟨hrefused, hkept⟩ := refused_calls_keep_declarations (start .dfa true) nested h
  obtain ⟨e, b', hrun⟩ := hrefused.mpr ⟨_, htarget, rfl⟩
  obtain ⟨hb', hsame⟩ := hkept e b' hrun
  refine ⟨h, e, b', hrun, fun heq => ?_, by rw [hb']; rfl⟩
  cases (hsame.mp heq).1 _ (List.mem_singleton.mpr rfl) rfl

/-- A refused call has given the builder another initial state, or another
kind. -/
theorem refused_calls_leave_traces :
    (∃ e b', (perform (.setInitial (.list [.int 1]))).run (start .nfa true) = .error e b' ∧
      b'.initial ≠ (start .nfa true).initial) ∧
    ∃ e b', (perform (.addEpsilon (.int 0) (.list []))).run (start .dfa false) = .error e b' ∧
      b'.kind ≠ (start .dfa false).kind :=
  ⟨⟨_, _, rfl, nofun⟩, _, _, rfl, nofun⟩

end Builder

end FiniteAutomata
