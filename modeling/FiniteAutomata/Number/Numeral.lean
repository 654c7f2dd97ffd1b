import FiniteAutomata.Number.Shortest

/-!
# Reading numbers from text

Blanks around a numeral are ignored, and single underscores may stand between
its characters. A text is read as an integer after its plus, its leading
zeros, a fraction of zeros and its underscores are left out.
-/

namespace FiniteAutomata

namespace Numeral

/-! ## Blanks and underscores -/

/-- The characters of the Unicode property `White_Space`. -/
def isBlank (c : Char) : Bool :=
  let n := c.toNat
  (9 ≤ n && n ≤ 13) || n == 0x20 || n == 0x85 || n == 0xa0 || n == 0x1680 ||
    (0x2000 ≤ n && n ≤ 0x200a) || n == 0x2028 || n == 0x2029 || n == 0x202f || n == 0x205f || n == 0x3000

def trim (cs : List Char) : List Char :=
  ((cs.dropWhile isBlank).reverse.dropWhile isBlank).reverse

def separated : List Char → Bool
  | '_' :: '_' :: _ => false
  | _ :: cs => separated cs
  | [] => true

def withoutUnderscores? (cs : List Char) : Option (List Char) :=
  if cs.contains '_' && cs.head? != some '_' && cs.getLast? != some '_' && separated cs then
    some (cs.filter (· != '_'))
  else none

/-! ## Integers -/

def digitValue (c : Char) : Nat := c.toNat - 48

def natOf (cs : List Char) : Nat := cs.foldl (fun n c => 10 * n + digitValue c) 0

def applySign (negative : Bool) (n : Nat) : Int := if negative then -(n : Int) else n

inductive Flaw where
  | unreadable
  | oversized
  deriving DecidableEq

def maxLength : Nat := 4300

def isLeadingDigit (c : Char) : Bool := c.isDigit && c != '0'

/-- The text behind zeros and underscores; a zero at its end or before a point
stays. `last` is the character read before. -/
def afterZero? (last : Char) : List Char → Option (List Char)
  | [] => some [last]
  | c :: cs =>
    if c = '0' || c = '_' then afterZero? c cs
    else if c = '.' then some (last :: c :: cs)
    else if c = '-' || isLeadingDigit c then some (c :: cs)
    else none

/-- Leaves out zeros in front, and the underscores among them. A minus may
stand before the zeros or behind them. -/
def withoutZeros? : List Char → Option (List Char)
  | [] => none
  | '-' :: cs => (withoutZeros? cs).map ('-' :: ·)
  | '0' :: cs => afterZero? '0' cs
  | c :: cs => if isLeadingDigit c then some (c :: cs) else none

def withoutPlus? : List Char → Option (List Char)
  | '+' :: '-' :: _ => none
  | '+' :: cs => some cs
  | cs => some cs

def withoutZeroFraction (cs : List Char) : List Char :=
  match cs.dropWhile (· != '.') with
  | '.' :: zero :: zeros => if (zero :: zeros).all (· == '0') then cs.takeWhile (· != '.') else cs
  | _ => cs

/-- An optional minus and digits, of which only a single one may start with
zero. -/
def strictInt (cs : List Char) : Except Flaw Int :=
  let negative := cs.head? == some '-'
  let body := if negative then cs.drop 1 else cs
  let digits := body.takeWhile Char.isDigit
  if body = ['0'] then .ok 0
  else if !(body.head?.any isLeadingDigit) then .error .unreadable
  else if maxLength < digits.length + (if negative then 1 else 0) then .error .oversized
  else if digits.length < body.length then .error .unreadable
  else .ok (applySign negative (natOf digits))

/-- An integer may have a sign, zeros in front, a fraction of zeros and
underscores between its digits. -/
def int (s : String) : Except Flaw Int :=
  match (withoutPlus? (trim s.toList)).bind withoutZeros? with
  | none => .error .unreadable
  | some cs =>
    let whole := withoutZeroFraction cs
    strictInt ((withoutUnderscores? whole).getD whole)

/-! ## Floating point numbers -/

def signed : List Char → Bool × List Char
  | '-' :: cs => (true, cs)
  | '+' :: cs => (false, cs)
  | cs => (false, cs)

def plainInt? (cs : List Char) : Option Int :=
  let (negative, digits) := signed cs
  if digits.isEmpty || !digits.all Char.isDigit then none
  else some (applySign negative (natOf digits))

/-- Far outside the range of exponents no power of ten is computed. -/
def ofDecimal (negative : Bool) (d : Decimal) : Binary64 :=
  if d.digits = 0 then (if negative then .negativeZero else .finite 0)
  else
    let top := (Decimal.digitCount d.digits : Int) + d.exponent
    if 400 < top then .infinite negative
    else if top < -400 then (if negative then .negativeZero else .finite 0)
    else if negative then .round (-d.value) else .round d.value

def exponent? : List Char → Option Int
  | [] => some 0
  | 'e' :: cs => plainInt? cs
  | 'E' :: cs => plainInt? cs
  | _ => none

def decimal? (cs : List Char) : Option Decimal :=
  let whole := cs.takeWhile Char.isDigit
  let afterWhole := cs.dropWhile Char.isDigit
  let (fraction, tail) :=
    match afterWhole with
    | '.' :: r => (r.takeWhile Char.isDigit, r.dropWhile Char.isDigit)
    | r => ([], r)
  if whole.isEmpty && fraction.isEmpty then none
  else (exponent? tail).map fun e => ⟨natOf (whole ++ fraction), e - fraction.length⟩

def plainFloat? (cs : List Char) : Option Binary64 :=
  let (negative, body) := signed cs
  let word := String.ofList (body.map Char.toLower)
  if word = "inf" || word = "infinity" then some (.infinite negative)
  else if word = "nan" then some (.undefined 0)
  else (decimal? body).map (ofDecimal negative)

def float? (s : String) : Option Binary64 :=
  match plainFloat? (trim s.toList) with
  | some x => some x
  | none => (withoutUnderscores? s.toList).bind plainFloat?

end Numeral

end FiniteAutomata
