/-!
# Texts that can be read in one way

The code of an element can be told from every other code whatever follows it
(`IsPrefixCode`), so coded elements up to a closing quote are read in one way
(`IsPrefixCode.flatMap_inj`). The items of a list need less: each can be told
from all others when a separator or a closing bracket follows it
(`Separable`), and then the whole list can (`intercalate_inj`). Numbers have
no stops in them and can be read back (`toString_int_inj`).
-/

namespace FiniteAutomata

variable {α : Type}

theorem cons_ne_append {x : List Char} {stop : Char} (hx : ∃ c cs, x = c :: cs ∧ c ≠ stop) (t u : List Char) :
    stop :: t ≠ x ++ u := by
  obtain ⟨c, cs, rfl, hne⟩ := hx
  intro heq
  exact hne (List.cons.inj heq).1.symm

/-! ## Prefix codes -/

def IsPrefixCode (code : α → List Char) : Prop := ∀ a b r s, code a ++ r = code b ++ s → a = b

namespace IsPrefixCode

variable {code : α → List Char}

theorem of_read {β : Type} {read : List Char → β} {name : α → β} (hname : ∀ a b, name a = name b → a = b)
    (h : ∀ a r, read (code a ++ r) = name a) : IsPrefixCode code := by
  intro a b r s heq
  apply hname
  rw [← h a r, heq, h b s]

theorem flatMap_inj (h : IsPrefixCode code) {quote : Char} (hquote : ∀ a, ∃ c cs, code a = c :: cs ∧ c ≠ quote)
    {xs ys : List α} {r s : List Char} (heq : xs.flatMap code ++ quote :: r = ys.flatMap code ++ quote :: s) :
    xs = ys ∧ r = s := by
  induction xs generalizing ys with
  | nil =>
    cases ys with
    | nil => exact ⟨rfl, (List.cons.inj heq).2⟩
    | cons y ys =>
      rw [List.flatMap_cons, List.append_assoc] at heq
      exact absurd heq (cons_ne_append (hquote y) _ _)
  | cons x xs ih =>
    rw [List.flatMap_cons, List.append_assoc] at heq
    cases ys with
    | nil => exact absurd heq.symm (cons_ne_append (hquote x) _ _)
    | cons y ys =>
      rw [List.flatMap_cons, List.append_assoc] at heq
      -- the first elements are the same, and so are the texts behind them
      obtain rfl := h x y _ _ heq
      obtain ⟨rfl, rfl⟩ := ih (List.append_cancel_left heq)
      exact ⟨rfl, rfl⟩

end IsPrefixCode

/-! ## Items between separators -/

/-- The characters that end an item. -/
def isStop (c : Char) : Bool := c == ',' || c == ')' || c == ']' || c == '\x7d'

def Stops (r : List Char) : Prop := ∀ c cs, r = c :: cs → isStop c = true

theorem stops_nil : Stops [] := by
  intro c cs h; cases h

theorem stops_cons {c : Char} {cs : List Char} (h : isStop c = true) : Stops (c :: cs) := by
  intro c' cs' h'
  cases h'; exact h

/-- The code of `a`, with a stop behind it, is no start of another code with a
stop behind that. -/
def Separable (code : α → List Char) (P : α → Prop) (a : α) : Prop :=
  ∀ b, P b → ∀ r s, Stops r → Stops s → code a ++ r = code b ++ s → a = b

theorem eq_of_forall_not_stop {cs ds r s : List Char} (hcs : ∀ c ∈ cs, isStop c = false)
    (hds : ∀ d ∈ ds, isStop d = false) (hr : Stops r) (hs : Stops s) (h : cs ++ r = ds ++ s) : cs = ds := by
  induction cs generalizing ds with
  | nil =>
    cases ds with
    | nil => rfl
    | cons d ds =>
      have hd := hds d List.mem_cons_self
      rw [hr d (ds ++ s) h] at hd; cases hd
  | cons c cs ih =>
    cases ds with
    | nil =>
      have hc := hcs c List.mem_cons_self
      rw [hs c (cs ++ r) h.symm] at hc; cases hc
    | cons d ds =>
      obtain ⟨rfl, hrest⟩ := List.cons.inj h
      rw [ih (List.forall_mem_cons.mp hcs).2 (List.forall_mem_cons.mp hds).2 hrest]

theorem intercalate_cons {sep x : List Char} (xs : List (List Char)) :
    sep.intercalate (x :: xs) = x ++ xs.flatMap (sep ++ ·) := by
  induction xs generalizing x with
  | nil => simp
  | cons y ys ih => rw [List.intercalate_cons_cons, ih]; simp

section
variable {code : α → List Char} {P : α → Prop} {blank : List Char} {close : Char}
variable (hclose : isStop close = true) (hcomma : close ≠ ',')
include hclose

theorem stops_rest (xs : List (List Char)) (r : List Char) :
    Stops (xs.flatMap (',' :: blank ++ ·) ++ close :: r) := by
  cases xs with
  | nil => exact stops_cons hclose
  | cons x xs => exact stops_cons rfl

include hcomma

theorem flatMap_separated_inj {xs ys : List α} (hxs : ∀ x ∈ xs, Separable code P x) (hys : ∀ y ∈ ys, P y)
    {r s : List Char} (h : (xs.map code).flatMap (',' :: blank ++ ·) ++ close :: r =
      (ys.map code).flatMap (',' :: blank ++ ·) ++ close :: s) : xs = ys ∧ r = s := by
  induction xs generalizing ys with
  | nil =>
    cases ys with
    | nil => exact ⟨rfl, (List.cons.inj h).2⟩
    | cons y ys => exact absurd (List.cons.inj h).1 hcomma
  | cons x xs ih =>
    cases ys with
    | nil => exact absurd (List.cons.inj h).1.symm hcomma
    | cons y ys =>
      simp only [List.map_cons, List.flatMap_cons, List.append_assoc] at h
      have h := List.append_cancel_left h
      obtain rfl := hxs x List.mem_cons_self y (hys y List.mem_cons_self) _ _ (stops_rest hclose _ _)
        (stops_rest hclose _ _) h
      obtain ⟨rfl, rfl⟩ := ih (List.forall_mem_cons.mp hxs).2 (List.forall_mem_cons.mp hys).2
        (List.append_cancel_left h)
      exact ⟨rfl, rfl⟩

/-- Items with separators between them and a bracket behind them. -/
theorem intercalate_inj (hopen : ∀ a, P a → ∃ c cs, code a = c :: cs ∧ c ≠ close) {xs ys : List α}
    (hxs : ∀ x ∈ xs, P x ∧ Separable code P x) (hys : ∀ y ∈ ys, P y) {r s : List Char}
    (h : (',' :: blank).intercalate (xs.map code) ++ close :: r =
      (',' :: blank).intercalate (ys.map code) ++ close :: s) : xs = ys ∧ r = s := by
  cases xs with
  | nil =>
    cases ys with
    | nil => exact ⟨rfl, (List.cons.inj h).2⟩
    | cons y ys =>
      rw [List.map_cons, intercalate_cons, List.append_assoc] at h
      exact absurd h (cons_ne_append (hopen y (hys y List.mem_cons_self)) _ _)
  | cons x xs =>
    rw [List.map_cons, intercalate_cons, List.append_assoc] at h
    cases ys with
    | nil => exact absurd h.symm (cons_ne_append (hopen x (hxs x List.mem_cons_self).1) _ _)
    | cons y ys =>
      rw [List.map_cons, intercalate_cons, List.append_assoc] at h
      obtain rfl := (hxs x List.mem_cons_self).2 y (hys y List.mem_cons_self) _ _ (stops_rest hclose _ _)
        (stops_rest hclose _ _) h
      obtain ⟨rfl, rfl⟩ := flatMap_separated_inj hclose hcomma (fun z hz => (hxs z (List.mem_cons_of_mem _ hz)).2)
        (List.forall_mem_cons.mp hys).2 (List.append_cancel_left h)
      exact ⟨rfl, rfl⟩

end

/-! ## Numbers -/

def isBare (c : Char) : Bool := c.isAlphanum || c == '-'

theorem not_stop_of_all {p : Char → Bool} (hp : [',', ')', ']', '\x7d'].all (fun stop => !p stop) = true) {c : Char}
    (h : p c = true) : isStop c = false := by
  rw [Bool.eq_false_iff]
  intro hstop
  have hmem : c ∈ [',', ')', ']', '\x7d'] := by simpa [isStop, or_assoc] using hstop
  have hnot := List.all_eq_true.mp hp c hmem
  rw [h] at hnot
  cases hnot

theorem not_stop_of_isBare {c : Char} (h : isBare c = true) : isStop c = false := not_stop_of_all rfl h

theorem toList_toString_int (n : Int) :
    (toString n).toList = (if 0 ≤ n then [] else ['-']) ++ Nat.toDigits 10 n.natAbs := by
  rw [Int.toString_eq_repr, Int.repr_eq_if]
  split
  · rw [Nat.toList_repr, show n.toNat = n.natAbs by omega]; rfl
  · rw [String.toList_append, Nat.toList_repr, show (-n).toNat = n.natAbs by omega]; rfl

theorem isDigit_of_mem_toDigits {n : Nat} {c : Char} (h : c ∈ Nat.toDigits 10 n) : c.isDigit = true :=
  Nat.isDigit_of_mem_toDigits (by decide) (by decide) h

theorem toString_int_ne_nil (n : Int) : (toString n).toList ≠ [] := by
  rw [toList_toString_int]
  exact List.append_ne_nil_of_right_ne_nil _ Nat.toDigits_ne_nil

theorem isDigit_or_sign {n : Int} {c : Char} (h : c ∈ (toString n).toList) : c.isDigit = true ∨ c = '-' := by
  rw [toList_toString_int] at h
  rcases List.mem_append.mp h with h | h
  · split at h
    · cases h
    · exact Or.inr (List.mem_singleton.mp h)
  · exact Or.inl (isDigit_of_mem_toDigits h)

theorem isBare_of_mem_toString_int {n : Int} {c : Char} (h : c ∈ (toString n).toList) : isBare c = true := by
  rcases isDigit_or_sign h with h | rfl
  · simp [isBare, Char.isAlphanum, h]
  · rfl

def readInt (cs : List Char) : Int :=
  if '-' ∈ cs then -Nat.ofDigitChars 10 (cs.filter Char.isDigit) 0
  else Nat.ofDigitChars 10 (cs.filter Char.isDigit) 0

theorem readInt_toString (n : Int) : readInt (toString n).toList = n := by
  have hdigits : (Nat.toDigits 10 n.natAbs).filter Char.isDigit = Nat.toDigits 10 n.natAbs :=
    List.filter_eq_self.mpr fun _ => isDigit_of_mem_toDigits
  rw [toList_toString_int]
  unfold readInt
  by_cases hn : 0 ≤ n
  · have hsign : '-' ∉ Nat.toDigits 10 n.natAbs := fun h => by cases isDigit_of_mem_toDigits h
    rw [if_pos hn, List.nil_append, if_neg hsign, hdigits, Nat.ofDigitChars_ten_toDigits]
    omega
  · rw [if_neg hn, List.singleton_append, if_pos List.mem_cons_self, List.filter_cons_of_neg (by decide), hdigits,
      Nat.ofDigitChars_ten_toDigits]
    omega

theorem toString_int_inj {m n : Int} (h : (toString m).toList = (toString n).toList) : m = n := by
  rw [← readInt_toString m, h, readInt_toString n]

end FiniteAutomata
