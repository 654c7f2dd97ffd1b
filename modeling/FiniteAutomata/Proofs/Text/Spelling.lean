import FiniteAutomata.Proofs.Number.ReadBack
import FiniteAutomata.Proofs.Text.Escapes
import FiniteAutomata.Value.Composed
import FiniteAutomata.Value.Definite

/-!
# Spellings are read in one way

The first character of a spelling tells numbers and names, texts, bytes,
tuples and sets from each other, and the end of a spelling is found by reading
it. So different values have different spellings, two sets also when they list
the same members in different orders (`Value.Definite.spelling_inj`).
-/

namespace FiniteAutomata

namespace Value

theorem Definite.of_composed {v : Value} (hv : Composed false v) : Definite v := by
  induction hv with
  | null => exact .null
  | bool b => exact .bool b
  | int n => exact .int n
  | text s => exact .text s
  | bytes bs => exact .bytes bs
  | tuple h ih => exact .tuple ih
  | frozenSet hsets => cases hsets

inductive Form where
  | bare
  | text
  | bytes
  | tuple
  | frozenSet

def form : Value → Form
  | text _ => .text
  | bytes _ => .bytes
  | tuple _ => .tuple
  | frozenSet _ => .frozenSet
  | _ => .bare

def Form.ofChar (c : Char) : Form :=
  if c = Quoted.singleQuote ∨ c = Quoted.doubleQuote then text else if c = 'b' then bytes
  else if c = '(' then tuple else if c = 'f' then frozenSet else bare

/-! ## Numbers and names -/

theorem spelling_int (n : Int) : (int n).spelling = (toString n).toList := rfl

theorem spelling_float (x : Binary64) : (float x).spelling = x.text.toList := rfl

def readBare (cs : List Char) : Value :=
  if 'N' ∈ cs then null else if 'T' ∈ cs then bool true else if 'F' ∈ cs then bool false
  else if cs.any isMark then float ((Numeral.plainFloat? cs).getD .negativeZero)
  else int (readInt cs)

theorem readBare_spelling {v : Value} (hv : Definite v) (hbare : v.form = .bare) : readBare v.spelling = v := by
  cases hv with
  | null => rfl
  | bool b =>
    cases b with
    | false => rfl
    | true => rfl
  | int n =>
    have hletter {c : Char} (hc : ¬(c.isDigit = true ∨ c = '-')) : c ∉ (toString n).toList :=
      fun hmem => hc (isDigit_or_sign hmem)
    have hmark : ¬ (toString n).toList.any isMark = true := by
      intro h
      obtain ⟨c, hc, hmark⟩ := List.any_eq_true.mp h
      have hnot : ['.', 'e', 'i'].all (fun c => !(c.isDigit || c == '-')) = true := rfl
      have hdigit := List.all_eq_true.mp hnot c (List.contains_iff_mem.mp hmark)
      exact hletter (by simpa using hdigit) hc
    unfold readBare
    rw [spelling_int, if_neg (hletter (by decide)), if_neg (hletter (by decide)), if_neg (hletter (by decide)),
      if_neg hmark, readInt_toString]
  | @float x hx hdef =>
    have hletter {c : Char} (hc : isNumberChar c = false) : c ∉ x.text.toList := by
      intro hmem
      rw [Binary64.isNumberChar_of_mem_text hdef c hmem] at hc
      cases hc
    unfold readBare
    rw [spelling_float, if_neg (hletter rfl), if_neg (hletter rfl), if_neg (hletter rfl),
      if_pos (List.any_eq_true.mpr (Binary64.exists_mark_mem_text hdef)), Binary64.plainFloat?_text hx hdef]
    rfl
  | text s => cases hbare
  | bytes bs => cases hbare
  | tuple h => cases hbare
  | frozenSet h => cases hbare

theorem not_stop_of_isNumberChar {c : Char} (h : isNumberChar c = true) : isStop c = false := not_stop_of_all rfl h

theorem not_stop_of_mem_spelling {v : Value} (hv : Definite v) (hbare : v.form = .bare) :
    ∀ c ∈ v.spelling, isStop c = false := by
  have hname (cs : List Char) (h : cs.all isBare = true) : ∀ c ∈ cs, isStop c = false :=
    fun c hc => not_stop_of_isBare (List.all_eq_true.mp h c hc)
  cases hv with
  | null => exact hname _ rfl
  | bool b =>
    cases b with
    | false => exact hname _ rfl
    | true => exact hname _ rfl
  | int n => exact fun _ hc => not_stop_of_isBare (isBare_of_mem_toString_int hc)
  | float hx hdef => exact fun c hc => not_stop_of_isNumberChar (Binary64.isNumberChar_of_mem_text hdef c hc)
  | text s => cases hbare
  | bytes bs => cases hbare
  | tuple h => cases hbare
  | frozenSet h => cases hbare

/-! ## Tuples -/

/-- What follows the first element, up to the closing bracket. -/
def tupleRest (codes : List (List Char)) : List Char :=
  if codes.isEmpty then [','] else codes.flatMap ([',', ' '] ++ ·)

theorem commas_cons (x : List Char) (xs : List (List Char)) :
    commas (x :: xs) = x ++ xs.flatMap ([',', ' '] ++ ·) := by
  induction xs generalizing x with
  | nil => simp [commas]
  | cons y ys ih =>
    rw [commas, ih]
    · simp
    · intro h; cases h

theorem tupleSpelling_cons (x : List Char) (xs : List (List Char)) :
    tupleSpelling (x :: xs) = '(' :: (x ++ tupleRest xs ++ [')']) := by
  cases xs with
  | nil => simp [tupleSpelling, tupleRest]
  | cons y ys =>
    rw [tupleSpelling, commas_cons]
    · rfl
    · intro z h; cases h

theorem spelling_tuple (xs : List Value) : (tuple xs).spelling = tupleSpelling (xs.map spelling) := by
  rw [spelling, spellings_eq_map]

/-! ## Sets -/

theorem spelling_frozenSet_nil_append (r : List Char) :
    (frozenSet []).spelling ++ r = "frozenset(".toList ++ ')' :: r := rfl

theorem spelling_frozenSet_cons_append (x : Value) (xs : List Value) (r : List Char) :
    (frozenSet (x :: xs)).spelling ++ r = "frozenset(".toList ++ openBrace ::
      (x.spelling ++ ((xs.map spelling).flatMap ([',', ' '] ++ ·) ++ closeBrace :: ')' :: r)) := by
  rw [spelling, spellings_eq_map, List.map_cons, commas_cons]
  simp [braced]

/-! ## The first character -/

theorem ofChar_eq_bare {c : Char} (h : c.isDigit = true ∨ c = '-' ∨ c = 'i') :
    Form.ofChar c = .bare ∧ isStop c = false := by
  rcases h with h | rfl | rfl
  · refine ⟨?_, not_stop_of_isBare (by simp [isBare, Char.isAlphanum, h])⟩
    unfold Form.ofChar
    rw [if_neg, if_neg, if_neg, if_neg]
    all_goals
      intro heq
      revert h
    · rw [heq]; decide
    · rw [heq]; decide
    · rw [heq]; decide
    · rcases heq with rfl | rfl
      · decide
      · decide
  · exact ⟨rfl, rfl⟩
  · exact ⟨rfl, rfl⟩

theorem exists_spelling_eq_cons {v : Value} (hv : Definite v) :
    ∃ c cs, v.spelling = c :: cs ∧ isStop c = false ∧ Form.ofChar c = v.form := by
  cases hv with
  | null => exact ⟨_, _, rfl, rfl, rfl⟩
  | bool b =>
    cases b with
    | false => exact ⟨_, _, rfl, rfl, rfl⟩
    | true => exact ⟨_, _, rfl, rfl, rfl⟩
  | int n =>
    obtain ⟨c, cs, hcs⟩ := List.exists_cons_of_ne_nil (toString_int_ne_nil n)
    have hc : c ∈ (toString n).toList := hcs ▸ List.mem_cons_self
    obtain ⟨hform, hstop⟩ := ofChar_eq_bare ((isDigit_or_sign hc).imp_right .inl)
    exact ⟨c, cs, hcs, hstop, hform⟩
  | float hx hdef =>
    obtain ⟨c, cs, hcs, hc⟩ := Binary64.exists_text_eq_cons hx hdef
    obtain ⟨hform, hstop⟩ := ofChar_eq_bare hc
    exact ⟨c, cs, hcs, hstop, hform⟩
  | text s =>
    refine ⟨Quoted.delimiter s.toList, _, rfl, ?_⟩
    rcases isQuote_delimiter s.toList with h | h
    · rw [h]; exact ⟨rfl, rfl⟩
    · rw [h]; exact ⟨rfl, rfl⟩
  | bytes bs => exact ⟨_, _, rfl, rfl, rfl⟩
  | @tuple xs h =>
    cases xs with
    | nil => exact ⟨_, _, rfl, rfl, rfl⟩
    | cons x xs =>
      rw [spelling_tuple, List.map_cons, tupleSpelling_cons]
      exact ⟨_, _, rfl, rfl, rfl⟩
  | @frozenSet xs h =>
    cases xs with
    | nil => exact ⟨_, _, rfl, rfl, rfl⟩
    | cons x xs => exact ⟨_, _, rfl, rfl, rfl⟩

theorem exists_spelling_ne_close {v : Value} (hv : Definite v) : ∃ c cs, v.spelling = c :: cs ∧ c ≠ ')' := by
  obtain ⟨c, cs, hc, hstop, -⟩ := exists_spelling_eq_cons hv
  refine ⟨c, cs, hc, ?_⟩
  rintro rfl
  cases hstop

/-! ## Whole spellings -/

theorem tupleSpelling_cons_append (x : List Char) (xs : List (List Char)) (r : List Char) :
    tupleSpelling (x :: xs) ++ r = '(' :: (x ++ (tupleRest xs ++ ')' :: r)) := by
  simp [tupleSpelling_cons]

theorem stops_tupleRest (codes : List (List Char)) (r : List Char) : Stops (tupleRest codes ++ ')' :: r) := by
  cases codes with
  | nil => exact stops_cons rfl
  | cons code codes => exact stops_cons rfl

section
variable {xs ys : List Value} (hxs : ∀ x ∈ xs, Definite x ∧ Separable spelling Definite x)
variable (hys : ∀ y ∈ ys, Definite y)
include hxs hys

theorem tupleRest_inj {r s : List Char} (h : tupleRest (xs.map spelling) ++ ')' :: r =
    tupleRest (ys.map spelling) ++ ')' :: s) : xs = ys := by
  cases xs with
  | nil =>
    cases ys with
    | nil => rfl
    | cons y ys => exact absurd (List.cons.inj (List.cons.inj h).2).1 (by decide)
  | cons x xs =>
    cases ys with
    | nil => exact absurd (List.cons.inj (List.cons.inj h).2).1 (by decide)
    | cons y ys => exact (flatMap_separated_inj rfl (by decide) (fun z hz => (hxs z hz).2) hys h).1

theorem tupleSpelling_inj {r s : List Char} (h : tupleSpelling (xs.map spelling) ++ r =
    tupleSpelling (ys.map spelling) ++ s) : xs = ys := by
  cases xs with
  | nil =>
    cases ys with
    | nil => rfl
    | cons y ys =>
      rw [List.map_cons, tupleSpelling_cons_append] at h
      exact absurd (List.cons.inj h).2 (cons_ne_append (exists_spelling_ne_close (hys y List.mem_cons_self)) _ _)
  | cons x xs =>
    rw [List.map_cons, tupleSpelling_cons_append] at h
    cases ys with
    | nil =>
      exact absurd (List.cons.inj h).2.symm
        (cons_ne_append (exists_spelling_ne_close (hxs x List.mem_cons_self).1) _ _)
    | cons y ys =>
      rw [List.map_cons, tupleSpelling_cons_append] at h
      have h := (List.cons.inj h).2
      -- behind the first element there is a comma in both spellings, so it ends at the same place
      obtain rfl := (hxs x List.mem_cons_self).2 y (hys y List.mem_cons_self) _ _ (stops_tupleRest _ _)
        (stops_tupleRest _ _) h
      rw [tupleRest_inj (List.forall_mem_cons.mp hxs).2 (List.forall_mem_cons.mp hys).2
        (List.append_cancel_left h)]

theorem members_inj {x y : Value} (hx : Separable spelling Definite x) (hy : Definite y) {r s : List Char}
    (h : x.spelling ++ ((xs.map spelling).flatMap ([',', ' '] ++ ·) ++ closeBrace :: r) =
      y.spelling ++ ((ys.map spelling).flatMap ([',', ' '] ++ ·) ++ closeBrace :: s)) : x :: xs = y :: ys := by
  obtain rfl := hx y hy _ _ (stops_rest rfl _ _) (stops_rest rfl _ _) h
  rw [(flatMap_separated_inj rfl (by decide) (fun z hz => (hxs z hz).2) hys (List.append_cancel_left h)).1]

theorem frozenSet_inj {r s : List Char}
    (h : (frozenSet xs).spelling ++ r = (frozenSet ys).spelling ++ s) : xs = ys := by
  cases xs with
  | nil =>
    cases ys with
    | nil => rfl
    | cons y ys =>
      rw [spelling_frozenSet_nil_append, spelling_frozenSet_cons_append] at h
      exact absurd (List.cons.inj (List.append_cancel_left h)).1 (by decide)
  | cons x xs =>
    cases ys with
    | nil =>
      rw [spelling_frozenSet_nil_append, spelling_frozenSet_cons_append] at h
      exact absurd (List.cons.inj (List.append_cancel_left h)).1 (by decide)
    | cons y ys =>
      rw [spelling_frozenSet_cons_append, spelling_frozenSet_cons_append] at h
      exact members_inj (List.forall_mem_cons.mp hxs).2 (List.forall_mem_cons.mp hys).2
        (hxs x List.mem_cons_self).2 (hys y List.mem_cons_self) (List.cons.inj (List.append_cancel_left h)).2

end

/-- Two spellings that start alike have the same form, so only values of one
form are compared. -/
theorem form_eq_of_append_eq {v w : Value} (hv : Definite v) (hw : Definite w) {r s : List Char}
    (h : v.spelling ++ r = w.spelling ++ s) : v.form = w.form := by
  obtain ⟨c, cs, hc, -, hf⟩ := exists_spelling_eq_cons hv
  obtain ⟨d, ds, hd, -, hg⟩ := exists_spelling_eq_cons hw
  rw [hc, hd] at h
  rw [← hf, (List.cons.inj h).1, hg]

theorem separable_of_bare {v : Value} (hv : Definite v) (hbare : v.form = .bare) : Separable spelling Definite v := by
  intro w hw r s hr hs h
  have hbare' : w.form = .bare := by rw [← form_eq_of_append_eq hv hw h, hbare]
  have hspelling : v.spelling = w.spelling :=
    eq_of_forall_not_stop (not_stop_of_mem_spelling hv hbare) (not_stop_of_mem_spelling hw hbare') hr hs h
  rw [← readBare_spelling hv hbare, hspelling, readBare_spelling hw hbare']

theorem separable_spelling {v : Value} (hv : Definite v) : Separable spelling Definite v := by
  induction hv with
  | null => exact separable_of_bare .null rfl
  | bool b => exact separable_of_bare (.bool b) rfl
  | int n => exact separable_of_bare (.int n) rfl
  | float hx hdef => exact separable_of_bare (.float hx hdef) rfl
  | text s =>
    intro w hw r u _ _ h
    have hform := form_eq_of_append_eq (.text s) hw h
    cases hw with
    | text t => rw [String.toList_inj.mp (quoted_inj h).1]
    | _ => cases hform
  | bytes bs =>
    intro w hw r s _ _ h
    have hform := form_eq_of_append_eq (.bytes bs) hw h
    cases hw with
    | bytes cs => rw [(bytes_inj h).1]
    | _ => cases hform
  | tuple hxs ih =>
    intro w hw r s _ _ h
    have hform := form_eq_of_append_eq (.tuple hxs) hw h
    cases hw with
    | tuple hys =>
      rw [spelling_tuple, spelling_tuple] at h
      rw [tupleSpelling_inj (fun x hx => ⟨hxs x hx, ih x hx⟩) hys h]
    | _ => cases hform
  | frozenSet hxs ih =>
    intro w hw r s _ _ h
    have hform := form_eq_of_append_eq (.frozenSet hxs) hw h
    cases hw with
    | frozenSet hys => rw [frozenSet_inj (fun x hx => ⟨hxs x hx, ih x hx⟩) hys h]
    | _ => cases hform

theorem Definite.spelling_inj {v w : Value} (hv : Definite v) (hw : Definite w) (h : v.spelling = w.spelling) :
    v = w :=
  separable_spelling hv w hw [] [] stops_nil stops_nil (by rw [h])

theorem spelling_inj {v w : Value} (hv : Composed false v) (hw : Composed false w)
    (h : v.spelling = w.spelling) : v = w :=
  Definite.spelling_inj (.of_composed hv) (.of_composed hw) h

end Value

end FiniteAutomata
