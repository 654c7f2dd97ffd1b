import FiniteAutomata.Proofs.Text.Codes
import FiniteAutomata.Text.JsonString
import Mathlib.Algebra.Group.Nat.Defs

/-!
# Escapes can be read back

One reader gets the code point back from every way to write a character:
plain, behind a backslash, as a letter or in hexadecimal (`readCode`). So no
two quoted texts are alike, whether they are quoted for display (`quoted_inj`,
`bytes_inj`) or as JSON (`json_text_inj`).
-/

namespace FiniteAutomata

/-! ## Hexadecimal numbers -/

def hexDigit (c : Char) : Nat := if c.toNat < 58 then c.toNat - 48 else c.toNat - 87

def hexValue (cs : List Char) : Nat := cs.foldl (fun n c => 16 * n + hexDigit c) 0

theorem hexDigit_digitChar : ∀ n < 16, hexDigit (Nat.digitChar n) = n := by decide

theorem length_hex (width n : Nat) : (Quoted.hex width n).length = width := by
  induction width generalizing n with
  | zero => rfl
  | succ width ih => simp [Quoted.hex, ih]

theorem hexValue_hex (width n : Nat) : hexValue (Quoted.hex width n) = n % 16 ^ width := by
  induction width generalizing n with
  | zero => simp [Quoted.hex, hexValue, Nat.mod_one]
  | succ width ih =>
    have hlast : hexValue (Quoted.hex (width + 1) n) =
        16 * hexValue (Quoted.hex width (n / 16)) + hexDigit (Nat.digitChar (n % 16)) := by
      simp [Quoted.hex, hexValue]
    rw [hlast, ih, hexDigit_digitChar _ (Nat.mod_lt _ (by decide)), Nat.pow_succ, Nat.mul_comm (16 ^ width),
      Nat.mod_mul, Nat.add_comm]

theorem hexValue_take_hex (width : Nat) {n : Nat} (hn : n < 16 ^ width) (r : List Char) :
    hexValue ((Quoted.hex width n ++ r).take width) = n := by
  rw [List.take_left' (length_hex width n), hexValue_hex, Nat.mod_eq_of_lt hn]

/-! ## The reader -/

def letterValue (c : Char) : Nat :=
  if c = 'n' then 10 else if c = 'r' then 13 else if c = 't' then 9 else if c = 'b' then 8
  else if c = 'f' then 12 else c.toNat

/-- A unit of the first half of the surrogates takes the unit behind it
along. -/
def readUnits (cs : List Char) : Nat :=
  let unit := hexValue (cs.take 4)
  if 0xd800 ≤ unit ∧ unit < 0xdc00 then
    0x10000 + (unit - 0xd800) * 0x400 + (hexValue ((cs.drop 6).take 4) - 0xdc00)
  else unit

def readEscaped : List Char → Nat
  | [] => 0
  | c :: cs =>
    if c = 'x' then hexValue (cs.take 2)
    else if c = 'u' then readUnits cs
    else if c = 'U' then hexValue (cs.take 8)
    else letterValue c

def readCode : List Char → Nat
  | [] => 0
  | c :: cs => if c = Quoted.backslash then readEscaped cs else c.toNat

theorem readCode_plain {c : Char} (h : c ≠ Quoted.backslash) (r : List Char) : readCode (c :: r) = c.toNat :=
  if_neg h

theorem readCode_backslash (r : List Char) : readCode (Quoted.backslash :: r) = readEscaped r := rfl

theorem readEscaped_x (r : List Char) : readEscaped ('x' :: r) = hexValue (r.take 2) := rfl

theorem readEscaped_u (r : List Char) : readEscaped ('u' :: r) = readUnits r := rfl

theorem readEscaped_U (r : List Char) : readEscaped ('U' :: r) = hexValue (r.take 8) := rfl

/-! ## Code points -/

def IsCodePoint (n : Nat) : Prop := n < 0xd800 ∨ 0xdfff < n ∧ n < 0x110000

theorem isCodePoint_toNat (c : Char) : IsCodePoint c.toNat := c.valid

theorem readUnits_of_isCodePoint {n : Nat} (h : IsCodePoint n) (hn : n < 0x10000) (r : List Char) :
    readUnits (Quoted.hex 4 n ++ r) = n := by
  unfold readUnits
  rw [hexValue_take_hex 4 hn]
  unfold IsCodePoint at h
  exact if_neg (by omega)

/-- The second unit of a pair is found behind the four digits of the first one
and the mark of its own. -/
theorem readUnits_pair {high low : Nat} (hhigh : 0xd800 ≤ high ∧ high < 0xdc00) (hlow : low < 0x10000)
    (r : List Char) : readUnits (Quoted.hex 4 high ++ (JsonString.coded low ++ r)) =
      0x10000 + (high - 0xd800) * 0x400 + (low - 0xdc00) := by
  have hdrop : (Quoted.hex 4 high ++ (JsonString.coded low ++ r)).drop 6 = Quoted.hex 4 low ++ r := by
    rw [List.drop_append, length_hex, List.drop_eq_nil_of_le (by rw [length_hex]; decide)]
    rfl
  unfold readUnits
  rw [hexValue_take_hex 4 (by omega), hdrop, hexValue_take_hex 4 hlow]
  exact if_pos hhigh

theorem readCode_coded {n : Nat} (h : IsCodePoint n) (r : List Char) : readCode (Quoted.coded n ++ r) = n := by
  have hn : n < 0x110000 := by
    unfold IsCodePoint at h; omega
  unfold Quoted.coded
  by_cases h₂ : n < 0x100
  · rw [if_pos h₂, List.cons_append, List.cons_append, readCode_backslash, readEscaped_x, hexValue_take_hex 2 h₂]
  · rw [if_neg h₂]
    by_cases h₄ : n < 0x10000
    · rw [if_pos h₄, List.cons_append, List.cons_append, readCode_backslash, readEscaped_u,
        readUnits_of_isCodePoint h h₄]
    · rw [if_neg h₄, List.cons_append, List.cons_append, readCode_backslash, readEscaped_U,
        hexValue_take_hex 8 (by omega)]

theorem readCode_units {n : Nat} (h : IsCodePoint n) (r : List Char) :
    readCode ((JsonString.units16 n).flatMap JsonString.coded ++ r) = n := by
  have hn : n < 0x110000 := by
    unfold IsCodePoint at h; omega
  unfold JsonString.units16
  by_cases h₄ : n < 0x10000
  · rw [if_pos h₄, List.flatMap_singleton, JsonString.coded, List.cons_append, List.cons_append, readCode_backslash,
      readEscaped_u, readUnits_of_isCodePoint h h₄]
  · rw [if_neg h₄, List.flatMap_cons, List.flatMap_singleton, List.append_assoc]
    rw [show JsonString.coded (0xd800 + (n - 0x10000) / 0x400) = Quoted.backslash :: 'u' ::
      Quoted.hex 4 (0xd800 + (n - 0x10000) / 0x400) from rfl, List.cons_append, List.cons_append,
      readCode_backslash, readEscaped_u, readUnits_pair (by omega) (by omega)]
    omega

/-! ## Letters -/

theorem readEscaped_of_quoted_letter {n : Nat} {l : Char} (h : Quoted.letter? n = some l) (r : List Char) :
    readEscaped (l :: r) = n := by
  unfold Quoted.letter? at h
  split at h
  · cases h; subst n; rfl
  · split at h
    · cases h; subst n; rfl
    · split at h
      · cases h; subst n; rfl
      · cases h

theorem readEscaped_of_json_letter {n : Nat} {l : Char} (h : JsonString.letter? n = some l) (r : List Char) :
    readEscaped (l :: r) = n := by
  unfold JsonString.letter? at h
  split at h
  · cases h; subst n; rfl
  · split at h
    · cases h; subst n; rfl
    · split at h
      · cases h; subst n; rfl
      · split at h
        · cases h; subst n; rfl
        · split at h
          · cases h; subst n; rfl
          · cases h

/-! ## Escaping -/

theorem exists_readEscaped {code : List Char} {n : Nat} (hcode : ∃ cs, code = Quoted.backslash :: cs)
    (hread : ∀ r, readCode (code ++ r) = n) :
    ∃ cs, code = Quoted.backslash :: cs ∧ ∀ r, readEscaped (cs ++ r) = n := by
  obtain ⟨cs, rfl⟩ := hcode
  exact ⟨cs, rfl, hread⟩

/-- A character stands for itself, or a backslash is put before what it is
read from. -/
def IsEscaping (quote : Char) (code : Char → List Char) : Prop :=
  ∀ c, (code c = [c] ∧ c ≠ quote ∧ c ≠ Quoted.backslash) ∨
    ∃ cs, code c = Quoted.backslash :: cs ∧ ∀ r, readEscaped (cs ++ r) = c.toNat

namespace IsEscaping

variable {quote : Char} {code : Char → List Char}

theorem isPrefixCode (h : IsEscaping quote code) : IsPrefixCode code := by
  refine IsPrefixCode.of_read (fun _ _ => Char.toNat_inj.mp) fun c r => (?_ : readCode (code c ++ r) = c.toNat)
  rcases h c with ⟨hc, -, hne⟩ | ⟨cs, hc, hread⟩
  · rw [hc]
    exact readCode_plain hne r
  · rw [hc, List.cons_append, readCode_backslash]
    exact hread r

theorem exists_eq_cons (h : IsEscaping quote code) (hquote : Quoted.backslash ≠ quote) (c : Char) :
    ∃ k cs, code c = k :: cs ∧ k ≠ quote := by
  rcases h c with ⟨hc, hne, -⟩ | ⟨cs, hc, -⟩
  · exact ⟨c, [], hc, hne⟩
  · exact ⟨Quoted.backslash, cs, hc, hquote⟩

theorem flatMap_inj (h : IsEscaping quote code) (hquote : Quoted.backslash ≠ quote) {cs ds r s : List Char}
    (heq : cs.flatMap code ++ quote :: r = ds.flatMap code ++ quote :: s) : cs = ds ∧ r = s :=
  h.isPrefixCode.flatMap_inj (h.exists_eq_cons hquote) heq

end IsEscaping

/-! ## Quoted text -/

def IsQuote (quote : Char) : Prop := quote = Quoted.singleQuote ∨ quote = Quoted.doubleQuote

theorem isQuote_delimiter (cs : List Char) : IsQuote (Quoted.delimiter cs) := by
  unfold Quoted.delimiter
  split
  · exact Or.inr rfl
  · exact Or.inl rfl

namespace IsQuote

variable {quote : Char} (h : IsQuote quote)
include h

theorem backslash_ne : Quoted.backslash ≠ quote := by
  rcases h with rfl | rfl
  · decide
  · decide

theorem readEscaped_eq {c : Char} (hc : c = quote ∨ c = Quoted.backslash) (r : List Char) :
    readEscaped (c :: r) = c.toNat := by
  rcases hc with rfl | rfl
  · rcases h with rfl | rfl
    · rfl
    · rfl
  · rfl

end IsQuote

theorem exists_coded_eq_cons {n : Nat} (h : IsCodePoint n) :
    ∃ cs, Quoted.coded n = Quoted.backslash :: cs ∧ ∀ r, readEscaped (cs ++ r) = n := by
  refine exists_readEscaped ?_ (readCode_coded h)
  unfold Quoted.coded
  split
  · exact ⟨_, rfl⟩
  · split
    · exact ⟨_, rfl⟩
    · exact ⟨_, rfl⟩

theorem isEscaping_escape (plain : Char → Bool) {quote : Char} (hq : IsQuote quote) :
    IsEscaping quote (Quoted.escape plain quote) := by
  intro c
  unfold Quoted.escape
  by_cases hc : c = quote ∨ c = Quoted.backslash
  · rw [if_pos (by simpa using hc)]
    exact Or.inr ⟨[c], rfl, hq.readEscaped_eq hc⟩
  · rw [if_neg (by simpa using hc)]
    cases hl : Quoted.letter? c.toNat with
    | some l => exact Or.inr ⟨[l], rfl, readEscaped_of_quoted_letter hl⟩
    | none =>
      dsimp only
      split
      · exact Or.inl ⟨rfl, fun h => hc (Or.inl h), fun h => hc (Or.inr h)⟩
      · exact Or.inr (exists_coded_eq_cons (isCodePoint_toNat c))

theorem quoted_append (plain : Char → Bool) (cs r : List Char) : Quoted.quoted plain cs ++ r =
    Quoted.delimiter cs ::
      (cs.flatMap (Quoted.escape plain (Quoted.delimiter cs)) ++ Quoted.delimiter cs :: r) := by
  simp [Quoted.quoted]

theorem quoted_inj {plain : Char → Bool} {cs ds r s : List Char}
    (h : Quoted.quoted plain cs ++ r = Quoted.quoted plain ds ++ s) : cs = ds ∧ r = s := by
  rw [quoted_append, quoted_append] at h
  -- the first character is the bounding quote, so both texts are escaped for the same one
  obtain ⟨hquote, hbody⟩ := List.cons.inj h
  rw [hquote] at hbody
  have hq := isQuote_delimiter ds
  exact (isEscaping_escape plain hq).flatMap_inj hq.backslash_ne hbody

theorem toNat_byteChar (b : UInt8) : (Quoted.byteChar b).toNat = b.toNat := by
  have hb : b.toNat.isValidChar := Or.inl (Nat.lt_trans b.toNat_lt (by decide))
  unfold Quoted.byteChar Char.ofNat
  rw [dif_pos hb]
  rfl

theorem byteChar_inj {a b : UInt8} (h : Quoted.byteChar a = Quoted.byteChar b) : a = b := by
  apply UInt8.toNat_inj.mp
  rw [← toNat_byteChar a, h, toNat_byteChar b]

theorem bytes_inj {as bs : List UInt8} {r s : List Char} (h : Quoted.bytes as ++ r = Quoted.bytes bs ++ s) :
    as = bs ∧ r = s := by
  obtain ⟨hchars, hrest⟩ := quoted_inj (List.cons.inj h).2
  exact ⟨(List.map_inj_right fun _ _ => byteChar_inj).mp hchars, hrest⟩

/-! ## JSON strings -/

theorem exists_units_eq_cons {n : Nat} (h : IsCodePoint n) :
    ∃ cs, (JsonString.units16 n).flatMap JsonString.coded = Quoted.backslash :: cs ∧
      ∀ r, readEscaped (cs ++ r) = n := by
  refine exists_readEscaped ?_ (readCode_units h)
  unfold JsonString.units16
  split
  · exact ⟨_, rfl⟩
  · exact ⟨_, rfl⟩

theorem isEscaping_json_escape : IsEscaping Quoted.doubleQuote JsonString.escape := by
  intro c
  unfold JsonString.escape
  by_cases hc : c = Quoted.doubleQuote ∨ c = Quoted.backslash
  · rw [if_pos (by simpa using hc)]
    exact Or.inr ⟨[c], rfl, IsQuote.readEscaped_eq (Or.inr rfl) hc⟩
  · rw [if_neg (by simpa using hc)]
    split
    · exact Or.inl ⟨rfl, fun h => hc (Or.inl h), fun h => hc (Or.inr h)⟩
    · cases hl : JsonString.letter? c.toNat with
      | some l => exact Or.inr ⟨[l], rfl, readEscaped_of_json_letter hl⟩
      | none => exact Or.inr (exists_units_eq_cons (isCodePoint_toNat c))

theorem toList_json_text (s : String) (r : List Char) : (JsonString.text s).toList ++ r =
    Quoted.doubleQuote :: (s.toList.flatMap JsonString.escape ++ Quoted.doubleQuote :: r) := by
  simp [JsonString.text]

theorem json_text_inj {s t : String} {r u : List Char}
    (h : (JsonString.text s).toList ++ r = (JsonString.text t).toList ++ u) : s = t ∧ r = u := by
  rw [toList_json_text, toList_json_text] at h
  obtain ⟨hchars, hrest⟩ := isEscaping_json_escape.flatMap_inj (by decide) (List.cons.inj h).2
  exact ⟨String.toList_inj.mp hchars, hrest⟩

end FiniteAutomata
