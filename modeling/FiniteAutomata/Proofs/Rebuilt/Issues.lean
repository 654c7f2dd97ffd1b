import FiniteAutomata.Automaton.Validation
import FiniteAutomata.Proofs.Rebuilt.Labels
import FiniteAutomata.Proofs.Relisted.Issues

/-!
# What is told about a copy of a draft

A copy of a draft lists copies of the same labels in the same order. A stage
of a check goes through these lists, or through the rows of a table that is
made from them, and asks which labels are equal and which can be looked up. So
the stages tell of a draft and of its copy one by one the same, though maybe
in other words (`Issue.Reworded`).
-/

namespace FiniteAutomata

open List (Forall₂)

/-! ## Lists of equal elements -/

section
variable {α β : Type}

/-- Equal one by one. -/
abbrev EqualEach [BEq α] (xs ys : List α) : Prop := Forall₂ (fun x y => (x == y) = true) xs ys

theorem beq_iff_equalEach [BEq α] {xs ys : List α} : (xs == ys) = true ↔ EqualEach xs ys := by
  induction xs generalizing ys with
  | nil => cases ys <;> simp
  | cons x xs ih =>
    cases ys with
    | nil => simp
    | cons y ys =>
      unfold EqualEach
      rw [List.forall₂_cons, list_beq_cons_iff, ih]

theorem EqualEach.alike [BEq α] [EquivBEq α] {xs ys : List α} (h : EqualEach xs ys) (counted : Bool) :
    Alike counted xs ys := by
  induction h with
  | nil => exact .refl []
  | cons hx _ ih => exact (Alike.singleton hx).append ih

theorem EqualEach.adjoin [BEq α] [EquivBEq α] {xs ys : List α} {x y : α} (h : EqualEach xs ys) (hx : (x == y) = true) :
    EqualEach (adjoin xs x) (adjoin ys y) := by
  have hcontains : xs.contains x = ys.contains y := by
    rw [(h.alike false).set, contains_congr hx]
  unfold FiniteAutomata.adjoin
  rw [hcontains]
  split
  · exact h
  · exact List.rel_append h (.cons hx .nil)

theorem EqualEach.adjoinAll [BEq α] [EquivBEq α] {xs ys zs us : List α} (h : EqualEach xs ys) (h' : EqualEach zs us) :
    EqualEach (adjoinAll xs zs) (adjoinAll ys us) :=
  List.rel_foldl (fun _ _ h _ _ hx => h.adjoin hx) h h'

end

/-! ## Rows -/

namespace Rows

variable {κ : Type} [BEq κ]

end Rows

section
variable {ts us : List Transition} (h : EqualEach ts us)
include h

end

/-! ## Issues in other words -/

/-- One issue of equal labels, worded in two ways. -/
structure Issue.Reworded (i j : Issue) : Prop where
  code : j.code = i.code
  severity : j.severity = i.severity
  location : j.location = i.location
  automatonId : j.automatonId = i.automatonId
  state : (i.state == j.state) = true
  symbol : (i.symbol == j.symbol) = true

namespace Issue

theorem Reworded.about {i j : Issue} (h : i.Reworded j) (id : String) : (i.about id).Reworded (j.about id) :=
  ⟨h.code, h.severity, h.location, rfl, h.state, h.symbol⟩

end Issue

structure Transition.Rebuilt (t u : Transition) : Prop where
  source : t.source.Rebuilt u.source
  symbol : t.symbol.Rebuilt u.symbol
  target : t.target.Rebuilt u.target

theorem Transition.Rebuilt.beq {t u : Transition} (h : t.Rebuilt u) : (t == u) = true :=
  Transition.beq_iff.mpr ⟨h.source.beq, h.symbol.beq, h.target.beq⟩

namespace Draft

structure Rebuilt (d e : Draft) : Prop where
  kind : e.kind = d.kind
  states : Forall₂ Value.Rebuilt d.states e.states
  alphabet : Forall₂ Value.Rebuilt d.alphabet e.alphabet
  initial : d.initial.Rebuilt e.initial
  finals : Forall₂ Value.Rebuilt d.finals e.finals
  transitions : Forall₂ Transition.Rebuilt d.transitions e.transitions

theorem equalEach_of_rebuilt {xs ys : List Value} (h : Forall₂ Value.Rebuilt xs ys) : EqualEach xs ys :=
  h.imp fun _ _ hx => hx.beq

namespace Rebuilt

variable {d e : Draft} (h : d.Rebuilt e)
include h

theorem withKind (kind? : Option Kind) : (d.withKind kind?).Rebuilt (e.withKind kind?) where
  kind := by
    unfold Draft.withKind
    rw [h.kind]
  states := h.states
  alphabet := h.alphabet
  initial := h.initial
  finals := h.finals
  transitions := h.transitions

theorem equalEach_transitions : EqualEach d.transitions e.transitions := h.transitions.imp fun _ _ ht => ht.beq

theorem relisted : d.Relisted true e where
  kind := h.kind.symm
  initial := h.initial.beq
  states := (equalEach_of_rebuilt h.states).alike true
  alphabet := (equalEach_of_rebuilt h.alphabet).alike true
  finals := (equalEach_of_rebuilt h.finals).alike true
  transitions := h.equalEach_transitions.alike true

/-! ### Declarations -/

section
variable {live live' : List Value} (hlive : SameSet live live') (strict : Bool)
include hlive

end

/-! ### Determinism -/

end Rebuilt

end Draft

end FiniteAutomata
