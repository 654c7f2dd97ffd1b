import FiniteAutomata.Automaton.Probe

/-!
# What draws give

A sampler gives a result with some property when it ends in no fault whatever
is drawn, and its result always has the property (`Sampling.Gives`). Draws
from ranges and lists that are not empty give members of them, so the random
words over an alphabet are words over it of the lengths asked for
(`gives_typicalWords`), and everything else about probes is fixed
(`gives_probes`).
-/

namespace FiniteAutomata

namespace Sampling

variable {α β : Type}

/-- From every source there is a result, and it has the property. -/
def Gives (m : Sampling α) (P : α → Prop) : Prop := ∀ source, ∃ x rest, m.run.run source = (.ok x, rest) ∧ P x

theorem gives_pure {P : α → Prop} {x : α} (h : P x) : Gives (pure x) P := fun source => ⟨x, source, rfl, h⟩

theorem Gives.mono {m : Sampling α} {P Q : α → Prop} (h : m.Gives P) (hPQ : ∀ x, P x → Q x) : m.Gives Q := by
  intro source
  obtain ⟨x, rest, hx, hP⟩ := h source
  exact ⟨x, rest, hx, hPQ x hP⟩

theorem Gives.bind {m : Sampling α} {f : α → Sampling β} {P : α → Prop} {Q : β → Prop} (h : m.Gives P)
    (hf : ∀ x, P x → (f x).Gives Q) : Gives (m >>= f) Q := by
  intro source
  obtain ⟨x, rest, hx, hP⟩ := h source
  obtain ⟨y, rest', hy, hQ⟩ := hf x hP rest
  refine ⟨y, rest', ?_, hQ⟩
  rw [ExceptT.run_bind, StateT.run_bind, hx]
  exact hy

theorem gives_draw : Gives draw fun _ => True := fun source => ⟨_, { source with used := source.used + 1 }, rfl, trivial⟩

theorem gives_between {low high : Int} (h : low ≤ high) : Gives (between low high) fun n => low ≤ n ∧ n ≤ high := by
  refine gives_draw.bind fun d _ => gives_pure ?_
  have hwidth : 0 < high - low + 1 := by omega
  have hpos := Int.emod_nonneg d.number (Int.ne_of_gt hwidth)
  have hlt := Int.emod_lt_of_pos d.number hwidth
  omega

theorem getD_emod_mem [Inhabited α] {xs : List α} (h : xs ≠ []) (n : Int) :
    xs.getD (n % xs.length).toNat default ∈ xs := by
  have hlength : (0 : Int) < xs.length := Int.natCast_pos.mpr (List.length_pos_iff.mpr h)
  have hpos := Int.emod_nonneg n (Int.ne_of_gt hlength)
  have hlt := Int.emod_lt_of_pos n hlength
  have hindex : (n % xs.length).toNat < xs.length := by omega
  rw [List.getD_eq_getElem?_getD, List.getElem?_eq_getElem hindex]
  exact List.getElem_mem hindex

theorem gives_choose [Inhabited α] {xs : List α} (h : xs ≠ []) : Gives (choose xs) (· ∈ xs) :=
  gives_draw.bind fun d _ => gives_pure (getD_emod_mem h d.number)

end Sampling

namespace Automaton

open Sampling

variable {A : Automaton}

theorem gives_randomWord (h : A.symbols ≠ []) (n : Nat) :
    (A.randomWord n).Gives fun w => w.length = n ∧ ∀ a ∈ w, a ∈ A.symbols := by
  induction n with
  | zero => exact gives_pure ⟨rfl, List.forall_mem_nil _⟩
  | succ n ih =>
    refine (gives_choose h).bind fun a ha => ih.bind fun w hw => gives_pure ⟨?_, List.forall_mem_cons.mpr ⟨ha, hw.2⟩⟩
    rw [List.length_cons, hw.1]

theorem gives_randomWords (h : A.symbols ≠ []) (maxLength count : Nat) : (A.randomWords maxLength count).Gives fun ws =>
    ws.length = count ∧ ∀ w ∈ ws, w.length ≤ maxLength ∧ ∀ a ∈ w, a ∈ A.symbols := by
  induction count with
  | zero => exact gives_pure ⟨rfl, List.forall_mem_nil _⟩
  | succ count ih =>
    refine (gives_between (Int.natCast_nonneg maxLength)).bind fun n hn => (gives_randomWord h _).bind fun w hw =>
      ih.bind fun ws hws => gives_pure ⟨?_, List.forall_mem_cons.mpr ⟨⟨?_, hw.2⟩, hws.2⟩⟩
    · rw [List.length_cons, hws.1]
    · rw [hw.1]
      omega

theorem gives_typicalWords (A : Automaton) (maxLength count : Nat) : (A.typicalWords maxLength count).Gives fun ws =>
    ws.length ≤ count ∧ ∀ w ∈ ws, w.length ≤ maxLength ∧ ∀ a ∈ w, a ∈ A.symbols := by
  unfold typicalWords
  by_cases h : A.symbols.isEmpty = true
  · rw [if_pos h]
    exact gives_pure ⟨Nat.zero_le _, List.forall_mem_nil _⟩
  · rw [if_neg h]
    have hne : A.symbols ≠ [] := fun hnil => h (List.isEmpty_iff.mpr hnil)
    exact (gives_randomWords hne maxLength count).mono fun ws hws => ⟨Nat.le_of_eq hws.1, hws.2⟩

/-- The probes when these random words are drawn. -/
def probesFrom (A : Automaton) (typical : List Word) : List Probe :=
  A.addProbes .coverage A.coverageWords []
    |> A.addProbes .boundary A.boundaryWords
    |> A.addProbes .typical typical
    |> A.addProbes .adversarial A.adversarialWords

theorem probes_eq (A : Automaton) {maxLength : Int} (h : 0 ≤ maxLength) (count : Int) : A.probes maxLength count = do
    let typical ← A.typicalWords maxLength.toNat count.toNat
    return A.probesFrom typical := by
  unfold probes
  rw [if_neg (Int.not_lt.mpr h)]
  rfl

theorem gives_probes (A : Automaton) {maxLength : Int} (h : 0 ≤ maxLength) (count : Int) :
    (A.probes maxLength count).Gives fun probes => ∃ typical, probes = A.probesFrom typical ∧
      typical.length ≤ count.toNat ∧ ∀ w ∈ typical, w.length ≤ maxLength.toNat ∧ ∀ a ∈ w, a ∈ A.symbols := by
  rw [A.probes_eq h]
  exact (A.gives_typicalWords _ _).bind fun typical htypical => gives_pure ⟨typical, rfl, htypical⟩

end Automaton

end FiniteAutomata
