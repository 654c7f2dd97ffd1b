import FiniteAutomata.Value.Key
import Mathlib.Algebra.Order.Ring.Unbundled.Rat
import Mathlib.Data.String.Basic

/-!
# Sets are equal whatever the order of their members

Keys stand in a linear order (`Key.swap_order`, `Key.order_trans`), and the
key of a set lists those of its members in that order. So sets with the same
members have the same key (`Key.ofMembers_congr`).
-/

namespace FiniteAutomata

/-! ## Orders of parts -/

section
variable {α : Type} [DecidableEq α] [LT α] [DecidableLT α] [Std.Asymm (fun a b : α => a < b)]

theorem orderOf_eq_lt_iff {a b : α} : orderOf a b = .lt ↔ a < b := by
  unfold orderOf
  split
  · rename_i h
    subst h
    exact ⟨fun h => (nomatch h), fun h => absurd h (Std.Asymm.asymm _ _ h)⟩
  · split
    · rename_i h
      exact ⟨fun _ => h, fun _ => rfl⟩
    · rename_i h
      exact ⟨fun h => (nomatch h), fun h' => absurd h' h⟩

theorem swap_orderOf [Std.Trichotomous (fun a b : α => a < b)] (a b : α) : (orderOf a b).swap = orderOf b a := by
  rcases Std.lt_trichotomy a b with h | rfl | h
  · have hne : b ≠ a := fun heq => by rw [heq] at h; exact Std.Asymm.asymm _ _ h h
    rw [orderOf_eq_lt_iff.mpr h, orderOf, if_neg hne, if_neg (Std.Asymm.asymm _ _ h)]; rfl
  · rw [orderOf_eq_iff.mpr rfl]; rfl
  · have hne : a ≠ b := fun heq => by rw [heq] at h; exact Std.Asymm.asymm _ _ h h
    rw [orderOf_eq_lt_iff.mpr h, orderOf, if_neg hne, if_neg (Std.Asymm.asymm _ _ h)]; rfl

theorem orderOf_trans [IsTrans α (fun a b => a < b)] {a b c : α} (h : orderOf a b = .lt) (h' : orderOf b c = .lt) :
    orderOf a c = .lt := by
  rw [orderOf_eq_lt_iff] at h h' ⊢
  exact IsTrans.trans a b c h h'

end

/-! ## Values without parts -/

namespace Atom

variable {a b c : Atom}

theorem swap_order (a b : Atom) : (a.order b).swap = b.order a := by
  cases a <;> cases b <;> exact swap_orderOf _ _

theorem order_of_rank_lt (h : a.rank < b.rank) : a.order b = .lt := by
  cases a <;> cases b <;> first | rfl | exact absurd h (by simp [rank])

theorem rank_le_of_order (h : a.order b = .lt) : a.rank ≤ b.rank := by
  rcases Nat.lt_or_ge b.rank a.rank with hlt | hge
  · rw [← swap_order, order_of_rank_lt hlt] at h
    cases h
  · exact hge

theorem order_trans (h : a.order b = .lt) (h' : b.order c = .lt) : a.order c = .lt := by
  have hab := rank_le_of_order h
  have hbc := rank_le_of_order h'
  rcases Nat.lt_or_ge a.rank c.rank with hlt | hge
  · exact order_of_rank_lt hlt
  · -- all three are values of one kind
    have heq : a.rank = b.rank := by omega
    have heq' : b.rank = c.rank := by omega
    cases a <;> cases b <;>
      first | (cases heq; done) | (cases c <;> first | (cases heq'; done) | exact orderOf_trans h h')

end Atom

/-! ## Keys -/

namespace Key

mutual

theorem swap_order : ∀ a b : Key, (a.order b).swap = b.order a
  | .leaf a, .leaf b => Atom.swap_order a b
  | .leaf _, .node _ _ => rfl
  | .node _ _, .leaf _ => rfl
  | .node s xs, .node t ys => by
    rw [order, order, Ordering.swap_then, swap_orderOf, swap_orderAll xs ys]

theorem swap_orderAll : ∀ xs ys : List Key, (orderAll xs ys).swap = orderAll ys xs
  | [], [] => rfl
  | [], _ :: _ => rfl
  | _ :: _, [] => rfl
  | x :: xs, y :: ys => by
    rw [orderAll, orderAll, Ordering.swap_then, swap_order x y, swap_orderAll xs ys]

end

mutual

theorem order_trans : ∀ {a b c : Key}, a.order b = .lt → b.order c = .lt → a.order c = .lt
  | .leaf _, .leaf _, .leaf _, h, h' => Atom.order_trans h h'
  | .leaf _, _, .node _ _, _, _ => rfl
  | .leaf _, .node _ _, .leaf _, _, h' => nomatch h'
  | .node _ _, .leaf _, _, h, _ => nomatch h
  | .node _ _, .node _ _, .leaf _, _, h' => nomatch h'
  | .node s xs, .node t ys, .node u zs, h, h' => by
    rw [order, Ordering.then_eq_lt] at h h' ⊢
    rcases h with h | ⟨h, hrest⟩
    · rcases h' with h' | ⟨h', -⟩
      · exact .inl (orderOf_trans h h')
      · exact .inl (orderOf_eq_iff.mp h' ▸ h)
    · rcases h' with h' | ⟨h', hrest'⟩
      · exact .inl (orderOf_eq_iff.mp h ▸ h')
      · exact .inr ⟨orderOf_eq_iff.mpr ((orderOf_eq_iff.mp h).trans (orderOf_eq_iff.mp h')),
          orderAll_trans hrest hrest'⟩

theorem orderAll_trans : ∀ {xs ys zs : List Key},
    orderAll xs ys = .lt → orderAll ys zs = .lt → orderAll xs zs = .lt
  | [], [], _, h, _ => nomatch h
  | [], _ :: _, [], _, h' => nomatch h'
  | [], _ :: _, _ :: _, _, _ => rfl
  | _ :: _, [], _, h, _ => nomatch h
  | _ :: _, _ :: _, [], _, h' => nomatch h'
  | x :: xs, y :: ys, z :: zs, h, h' => by
    rw [orderAll, Ordering.then_eq_lt] at h h' ⊢
    rcases h with h | ⟨h, hrest⟩
    · rcases h' with h' | ⟨h', -⟩
      · exact .inl (order_trans h h')
      · exact .inl (order_eq_iff.mp h' ▸ h)
    · rcases h' with h' | ⟨h', hrest'⟩
      · exact .inl (order_eq_iff.mp h ▸ h')
      · exact .inr ⟨order_eq_iff.mpr ((order_eq_iff.mp h).trans (order_eq_iff.mp h')), orderAll_trans hrest hrest'⟩

end

/-! ## Members -/

variable {k l : Key} {ks ls : List Key}

theorem mem_insert : l ∈ insert k ks ↔ l = k ∨ l ∈ ks := by
  induction ks with
  | nil => simp [insert]
  | cons x xs ih =>
    unfold insert
    cases h : k.order x with
    | lt => simp
    | eq => simp [order_eq_iff.mp h]
    | gt =>
      rw [List.mem_cons, ih, List.mem_cons]
      exact or_left_comm

def Rising (ks : List Key) : Prop := ks.Pairwise fun k l => k.order l = .lt

theorem Rising.insert (h : Rising ks) (k : Key) : Rising (Key.insert k ks) := by
  induction ks with
  | nil => exact List.pairwise_singleton _ _
  | cons x xs ih =>
    obtain ⟨hx, hxs⟩ := List.pairwise_cons.mp h
    unfold Key.insert
    cases hk : k.order x with
    | lt =>
      refine List.pairwise_cons.mpr ⟨List.forall_mem_cons.mpr ⟨hk, fun y hy => ?_⟩, h⟩
      exact order_trans hk (hx y hy)
    | eq => exact h
    | gt =>
      refine List.pairwise_cons.mpr ⟨fun y hy => ?_, ih hxs⟩
      rcases mem_insert.mp hy with rfl | hy
      · rw [← swap_order, hk]; rfl
      · exact hx y hy

theorem rising_foldr_insert (ks : List Key) : Rising (ks.foldr insert []) := by
  induction ks with
  | nil => exact List.Pairwise.nil
  | cons k ks ih => exact ih.insert k

theorem mem_foldr_insert : k ∈ ks.foldr insert [] ↔ k ∈ ks := by
  induction ks with
  | nil => rfl
  | cons l ls ih => rw [List.foldr_cons, mem_insert, ih, List.mem_cons]

theorem order_self (k : Key) : k.order k = .eq := order_eq_iff.mpr rfl

theorem Rising.eq_of_mem_iff (hks : Rising ks) (hls : Rising ls) (h : ∀ k, k ∈ ks ↔ k ∈ ls) : ks = ls := by
  have hnodup {ms : List Key} (hms : Rising ms) : ms.Nodup := by
    refine hms.imp fun hlt heq => ?_
    rw [heq, order_self] at hlt
    cases hlt
  refine ((List.perm_ext_iff_of_nodup (hnodup hks) (hnodup hls)).mpr h).eq_of_pairwise ?_ hks hls
  intro k l _ _ hkl hlk
  rw [← swap_order, hlk] at hkl
  cases hkl

theorem ofMembers_congr (s : Shape) (h : ∀ k, k ∈ ks ↔ k ∈ ls) : ofMembers s ks = ofMembers s ls := by
  unfold ofMembers
  rw [(rising_foldr_insert ks).eq_of_mem_iff (rising_foldr_insert ls) fun k => ?_]
  rw [mem_foldr_insert, mem_foldr_insert, h]

end Key

end FiniteAutomata
