import FiniteAutomata.Proofs.Text.Escapes
import FiniteAutomata.Value.Canonical

/-!
# JSON texts are read in one way

The first character of a JSON text tells its form, and its end is found by
reading it. So an array has one list of items (`IsJson.array_inj`) and an
object one name and one body (`IsJson.object_inj`).
-/

namespace FiniteAutomata

inductive JsonForm where
  | bare
  | text
  | array
  | object

namespace JsonForm

def ofChar (c : Char) : JsonForm :=
  if c = '\x22' then text else if c = '[' then array else if c = '\x7b' then object else bare

def ofText (s : String) : JsonForm :=
  match s.toList with
  | [] => bare
  | c :: _ => ofChar c

end JsonForm

inductive WrittenJson : JsonForm → String → Prop where
  | bare {s : String} (hne : s.toList ≠ []) (h : ∀ c ∈ s.toList, isBare c = true) : WrittenJson .bare s
  | text (s : String) : WrittenJson .text (JsonString.text s)
  | array {items : List String} (h : ∀ x ∈ items, WrittenJson (.ofText x) x) :
      WrittenJson .array (Json.array items)
  | object (name : String) {body : String} (h : WrittenJson (.ofText body) body) :
      WrittenJson .object (Json.object name body)

def IsJson (s : String) : Prop := WrittenJson (.ofText s) s

/-! ## Characters -/

theorem toList_array_append (items : List String) (r : List Char) : (Json.array items).toList ++ r =
    '[' :: ([','].intercalate (items.map String.toList) ++ ']' :: r) := by
  simp [Json.array, String.toList_intercalate]

theorem toList_object_append (name body : String) (r : List Char) : (Json.object name body).toList ++ r =
    '\x7b' :: ((JsonString.text name).toList ++ ':' :: (body.toList ++ '\x7d' :: r)) := by
  simp [Json.object]

theorem ofChar_of_isBare {c : Char} (h : isBare c = true) : JsonForm.ofChar c = .bare := by
  unfold JsonForm.ofChar
  rw [if_neg, if_neg, if_neg]
  all_goals
    rintro rfl
    cases h

namespace WrittenJson

variable {f : JsonForm} {x y : String}

theorem exists_cons (h : WrittenJson f x) :
    ∃ c cs, x.toList = c :: cs ∧ isStop c = false ∧ JsonForm.ofChar c = f := by
  cases h with
  | bare hne hbare =>
    obtain ⟨c, cs, hx⟩ := List.exists_cons_of_ne_nil hne
    have hc := hbare c (hx ▸ List.mem_cons_self)
    exact ⟨c, cs, hx, not_stop_of_isBare hc, ofChar_of_isBare hc⟩
  | text s => exact ⟨_, _, by simpa using toList_json_text s [], rfl, rfl⟩
  | array h => exact ⟨_, _, by simpa using toList_array_append _ [], rfl, rfl⟩
  | object name h => exact ⟨_, _, by simpa using toList_object_append name _ [], rfl, rfl⟩

theorem ofText_eq (h : WrittenJson f x) : JsonForm.ofText x = f := by
  obtain ⟨c, cs, hx, -, hc⟩ := h.exists_cons
  unfold JsonForm.ofText
  rw [hx]
  exact hc

theorem isJson (h : WrittenJson f x) : IsJson x := by
  unfold IsJson
  rw [h.ofText_eq]
  exact h

/-- Two texts that start alike have the same form, so only texts of one form
are compared. -/
theorem of_append_eq (hx : WrittenJson f x) (hy : IsJson y) {r s : List Char}
    (h : x.toList ++ r = y.toList ++ s) : WrittenJson f y := by
  obtain ⟨c, cs, hc, -, hf⟩ := hx.exists_cons
  obtain ⟨d, ds, hd, -, hg⟩ := WrittenJson.exists_cons hy
  rw [hc, hd] at h
  rw [← hf, (List.cons.inj h).1, hg]
  exact hy

end WrittenJson

/-! ## Parts -/

namespace IsJson

variable {xs ys : List String} {m n x y : String} {r s : List Char}

theorem exists_cons (h : IsJson x) : ∃ c cs, x.toList = c :: cs ∧ c ≠ ']' := by
  obtain ⟨c, cs, hx, hstop, -⟩ := WrittenJson.exists_cons h
  refine ⟨c, cs, hx, ?_⟩
  rintro rfl
  cases hstop

theorem array_append_inj (hxs : ∀ x ∈ xs, IsJson x ∧ Separable String.toList IsJson x)
    (hys : ∀ y ∈ ys, IsJson y) (h : (Json.array xs).toList ++ r = (Json.array ys).toList ++ s) : xs = ys := by
  rw [toList_array_append, toList_array_append] at h
  exact (intercalate_inj rfl (by decide) (fun _ => exists_cons) hxs hys (List.cons.inj h).2).1

theorem object_append_inj (hx : Separable String.toList IsJson x) (hy : IsJson y)
    (h : (Json.object m x).toList ++ r = (Json.object n y).toList ++ s) : m = n ∧ x = y := by
  rw [toList_object_append, toList_object_append] at h
  obtain ⟨hname, hrest⟩ := json_text_inj (List.cons.inj h).2
  exact ⟨hname, hx y hy _ _ (stops_cons rfl) (stops_cons rfl) (List.cons.inj hrest).2⟩

end IsJson

/-! ## The whole text -/

theorem WrittenJson.separable {f : JsonForm} {x : String} (hx : WrittenJson f x) :
    Separable String.toList IsJson x := by
  induction hx with
  | bare hne hbare =>
    intro y hy r s hr hs h
    cases (WrittenJson.bare hne hbare).of_append_eq hy h with
    | bare hne' hbare' =>
      exact String.toList_inj.mp (eq_of_forall_not_stop (fun c hc => not_stop_of_isBare (hbare c hc))
        (fun c hc => not_stop_of_isBare (hbare' c hc)) hr hs h)
  | text s =>
    intro y hy r u _ _ h
    cases (WrittenJson.text s).of_append_eq hy h with
    | text t => rw [(json_text_inj h).1]
  | array hitems ih =>
    intro y hy r s _ _ h
    cases (WrittenJson.array hitems).of_append_eq hy h with
    | array hitems' =>
      rw [IsJson.array_append_inj (fun x hx => ⟨hitems x hx, ih x hx⟩) hitems' h]
  | object name hbody ih =>
    intro y hy r s _ _ h
    cases (WrittenJson.object name hbody).of_append_eq hy h with
    | object name' hbody' =>
      obtain ⟨rfl, rfl⟩ := IsJson.object_append_inj ih hbody' h
      rfl

namespace IsJson

variable {xs ys : List String} {m n x y : String}

theorem array_inj (hxs : ∀ x ∈ xs, IsJson x) (hys : ∀ y ∈ ys, IsJson y)
    (h : Json.array xs = Json.array ys) : xs = ys := by
  refine array_append_inj (fun x hx => ⟨hxs x hx, WrittenJson.separable (hxs x hx)⟩) hys (r := []) (s := []) ?_
  rw [h]

theorem object_inj (hx : IsJson x) (hy : IsJson y) (h : Json.object m x = Json.object n y) :
    m = n ∧ x = y := by
  refine object_append_inj (WrittenJson.separable hx) hy (r := []) (s := []) ?_
  rw [h]

end IsJson

end FiniteAutomata
