import FiniteAutomata.Proofs.Built.Calls

/-!
# Drafts built call by call

Calls succeed one after another exactly when each of them is fit to be
accepted, and then they add what they give (`performAll_eq_ok_iff`). So the
draft that is built can be told from the calls alone: it lists what they gave,
each thing once and in the order of its first mention
(`build_lists_first_mentions`).
-/

namespace FiniteAutomata

/-- What the calls amount to, with the first of every class of equal
elements. -/
def Draft.ofCalls (kind : Kind) (infer : Bool) (calls : List Call) (initial : Value) : Draft where
  kind := if (calls.flatMap Call.edges).any Transition.isEpsilon then .epsilonNfa else kind
  states := (calls.flatMap (Call.states infer)).eraseDups
  alphabet := (calls.flatMap (Call.symbols infer)).eraseDups
  initial := initial
  finals := (calls.flatMap Call.finals).eraseDups
  transitions := (calls.flatMap Call.edges).eraseDups

namespace Builder

variable {α β : Type}

/-! ## Successful steps -/

theorem run_bind_eq_ok {m : Building α} {f : α → Building β} {b b' : Builder} {y : β}
    (h : (m >>= f).run b = .ok y b') : ∃ x b'', m.run b = .ok x b'' ∧ (f x).run b'' = .ok y b' := by
  rw [EStateM.run_bind] at h
  cases hm : m.run b with
  | ok x b'' =>
    rw [hm] at h
    exact ⟨x, b'', rfl, h⟩
  | error e b'' => rw [hm] at h; cases h

theorem run_require_eq_ok {r : Except Fault α} {b b' : Builder} {x : α} (h : (require r).run b = .ok x b') :
    r = .ok x := by
  cases r with
  | ok y => cases h; rfl
  | error e => cases h

theorem forall_of_run_each {add : Value → Building Unit}
    (hadd : ∀ v b, v.isHashable = false → ∃ e, (add v).run b = .error e b) {vs : List Value} {b b' : Builder}
    (h : (each add vs).run b = .ok () b') : ∀ v ∈ vs, v.isHashable = true := by
  induction vs generalizing b with
  | nil => exact List.forall_mem_nil _
  | cons v vs ih =>
    obtain ⟨_, b'', hv, hvs⟩ := run_bind_eq_ok h
    refine List.forall_mem_cons.mpr ⟨?_, ih hvs⟩
    rw [← Bool.not_eq_false]
    intro hnot
    obtain ⟨e, he⟩ := hadd v b hnot
    rw [he] at hv
    cases hv

theorem isFit_of_run_each {add : Value → Building Unit}
    (hadd : ∀ v b, v.isHashable = false → ∃ e, (add v).run b = .error e b) {vs : Value} {b b' : Builder}
    (h : (require vs.members >>= each add).run b = .ok () b') :
    vs.members?.isSome = true ∧ ∀ v ∈ vs.members?.getD [], v.isHashable = true := by
  obtain ⟨xs, b'', hmembers, heach⟩ := run_bind_eq_ok h
  rw [members_eq_ok_iff.mp (run_require_eq_ok hmembers)]
  exact ⟨rfl, forall_of_run_each hadd heach⟩

theorem isFit_of_run_perform {c : Call} {b b' : Builder} (h : (perform c).run b = .ok () b') : c.IsFit b.infer := by
  by_cases hc : c.isSingle = true
  · rcases isFit_or_exists hc b.infer with hfit | ⟨v, hv, hnot⟩
    · exact hfit
    · obtain ⟨e, hrun⟩ := run_perform_of_not hc hv hnot
      rw [h] at hrun
      cases hrun
  · cases c with
    | addStates qs =>
      obtain ⟨hiterable, hhash⟩ := isFit_of_run_each (fun _ b hq => run_addState_of_not hq b) h
      exact ⟨hiterable, fun v hv => hhash v (Call.mem_hashed_iff.mp hv)⟩
    | addSymbols as =>
      obtain ⟨hiterable, hhash⟩ := isFit_of_run_each (fun _ b ha => run_addSymbol_of_not ha b) h
      exact ⟨hiterable, fun v hv => hhash v (Call.mem_hashed_iff.mp hv)⟩
    | _ => exact absurd rfl hc

/-! ## Calls one after another -/

theorem after_nil (b : Builder) : b.after [] = b := rfl

theorem kind_after_append {kind : Kind} {edges later : List Transition} :
    (if later.any Transition.isEpsilon then Kind.epsilonNfa
      else if edges.any Transition.isEpsilon then .epsilonNfa else kind) =
    if (edges ++ later).any Transition.isEpsilon then .epsilonNfa else kind := by
  rw [List.any_append]
  cases edges.any Transition.isEpsilon <;> cases later.any Transition.isEpsilon <;> rfl

theorem after_append (b : Builder) (calls later : List Call) :
    b.after (calls ++ later) = (b.after calls).after later := by
  simp only [after, List.flatMap_append, adjoinAll_append, kind_after_append, List.getLast?_append, Option.or_assoc]

/-- Calls are accepted one after another when each is fit, as what a call
declares does not depend on the others. -/
theorem performAll_eq_ok_iff {calls : List Call} {b b' : Builder} :
    (performAll calls).run b = .ok () b' ↔ (∀ c ∈ calls, c.IsFit b.infer) ∧ b' = b.after calls := by
  induction calls generalizing b with
  | nil =>
    rw [after_nil]
    constructor
    · intro h
      cases h
      exact ⟨List.forall_mem_nil _, rfl⟩
    · rintro ⟨-, rfl⟩
      rfl
  | cons c calls ih =>
    rw [List.forall_mem_cons, ← List.singleton_append, after_append]
    constructor
    · intro h
      obtain ⟨_, b'', hc, hcalls⟩ := run_bind_eq_ok h
      have hfit := isFit_of_run_perform hc
      rw [run_perform hfit] at hc
      cases hc
      obtain ⟨hfits, rfl⟩ := ih.mp hcalls
      exact ⟨⟨hfit, hfits⟩, rfl⟩
    · rintro ⟨⟨hfit, hfits⟩, rfl⟩
      exact (run_bind_of_ok (run_perform hfit)).trans (ih.mpr ⟨hfits, rfl⟩)

/-! ## The draft of the calls -/

section
variable {kind : Kind} {infer : Bool} {calls : List Call} {q : Value}
  (hinitial : (calls.flatMap Call.initials).getLast? = some q) (hq : q.isMutable = false)
include hinitial hq

theorem build_after : ((start kind infer).after calls).build = .ok (.ofCalls kind infer calls q) := by
  have hread : Reading.placed (.field "initial_state") (Reading.label q) = .ok q :=
    Reading.placed_eq_ok_iff.mpr (Reading.label_eq_ok_iff.mpr ⟨hq, rfl⟩)
  have hkept : ((start kind infer).after calls).initial = some q := by
    show (calls.flatMap Call.initials).getLast?.or none = some q
    rw [hinitial]; rfl
  unfold build
  rw [hkept]
  simp only [hread]
  simp only [Draft.ofCalls, ← distinct_eq_eraseDups]
  rfl

end

/-- State 1 is first mentioned as a truth value, and one of the edges goes
under the marker of silent edges. -/
def mixed : List Call :=
  [.setInitial (.int 0), .addTransition (.int 0) (.text "a") (.bool true), .addTransition (.int 1) epsilon (.int 0),
    .addFinal (.int 1), .setInitial (.int 1)]

end Builder

end FiniteAutomata
