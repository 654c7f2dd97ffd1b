import FiniteAutomata.Number.Numeral
import FiniteAutomata.Reading.Defect
import FiniteAutomata.Value.Key

/-!
# Reading untyped values

Every part of a record is read, and the defects of all parts are collected.
-/

namespace FiniteAutomata

abbrev Reading := Except (List Defect)

namespace Reading

variable {α β : Type}

def next (a : Reading α) : Reading (α → β) → Reading β
  | .ok f =>
    match a with
    | .ok x => .ok (f x)
    | .error ds => .error ds
  | .error ds =>
    match a with
    | .ok _ => .error ds
    | .error es => .error (ds ++ es)

def fail (p : Problem) : Reading α := .error [⟨[], p⟩]

def placed (step : Step) : Reading α → Reading α
  | .error ds => .error (ds.map (Defect.within step))
  | .ok x => .ok x

/-! ## Records -/

def field (name : String) (read : Value → Reading α) (record : Value) : Reading α :=
  placed (.field name) <|
    match record.field? name with
    | none => fail .missing
    | some v => read v

def fieldOr (name : String) (absent : α) (read : Value → Reading α) (record : Value) : Reading α :=
  match record.field? name with
  | none => .ok absent
  | some v => placed (.field name) (read v)

def record (read : Value → Reading α) (v : Value) : Reading α :=
  match v with
  | .record _ => read v
  | _ => fail .notRecord

/-! ## Scalars -/

def anything (v : Value) : Reading Value := .ok v

/-- Looks at the value itself only, not into a tuple. -/
def label (v : Value) : Reading Value :=
  if v.isMutable then fail .notHashable else .ok v

def decoded? (bs : List UInt8) : Option String := String.fromUTF8? ⟨bs.toArray⟩

def orFail (p : Problem) : Option α → Reading α
  | some x => .ok x
  | none => fail p

def text : Value → Reading String
  | .text s => .ok s
  | .bytes bs => orFail .notUnicode (decoded? bs)
  | .byteArray bs => orFail .notUnicode (decoded? bs)
  | _ => fail .notText

def textOrNull : Value → Reading (Option String)
  | .null => .ok none
  | v => (text v).map some

def named (ofName? : String → Option α) : Value → Reading α
  | .text s => orFail .notListed (ofName? s)
  | .bytes bs => orFail .notListed ((decoded? bs).bind ofName?)
  | .byteArray bs => orFail .notListed ((decoded? bs).bind ofName?)
  | _ => fail .notListed

def wholeFloat (x : Binary64) : Reading Int :=
  match x.toRat? with
  | none => fail .notFinite
  | some q =>
    if q.den ≠ 1 then fail .fractional
    else if -Int.pow 2 63 < q.num ∧ q.num < Int.pow 2 63 then .ok q.num
    else fail .oversized

def wholeText (s : String) : Reading Int :=
  match Numeral.int s with
  | .ok n => .ok n
  | .error .unreadable => fail .unreadableInt
  | .error .oversized => fail .oversized

/-- An integer, a truth value, a float without a fraction or the text of an
integer. -/
def int : Value → Reading Int
  | .int n => .ok n
  | .bool b => .ok (if b then 1 else 0)
  | .float x => wholeFloat x
  | .text s => wholeText s
  | .bytes bs =>
    match decoded? bs with
    | some s => wholeText s
    | none => fail .unreadableInt
  | _ => fail .notInt

def nonnegative (v : Value) : Reading Nat :=
  match int v with
  | .ok n => if n < 0 then fail .negative else .ok n.toNat
  | .error ds => .error ds

/-- A number, a truth value or the text of a number. An integer must lie in
the range of floats. -/
def float : Value → Reading Binary64
  | .float x => .ok x
  | .int n => orFail .notFloat (Number.int n).toFloat?
  | .bool b => .ok (.finite (if b then 1 else 0))
  | .text s => orFail .unreadableFloat (Numeral.float? s)
  | .bytes bs => orFail .unreadableFloat ((decoded? bs).bind Numeral.float?)
  | _ => fail .notFloat

/-! ## Collections -/

def elements? : Value → Option (List Value)
  | .list xs => some xs
  | .tuple xs => some xs
  | .set xs => some xs
  | .frozenSet xs => some xs
  | _ => none

def eachFrom (read : Value → Reading α) : Nat → List Value → Reading (List α)
  | _, [] => .ok []
  | i, v :: vs => Except.ok List.cons |> next (placed (.index i) (read v)) |> next (eachFrom read (i + 1) vs)

def each (wrong : Problem) (read : Value → Reading α) (v : Value) : Reading (List α) :=
  match elements? v with
  | some vs => eachFrom read 0 vs
  | none => fail wrong

def list (read : Value → Reading α) : Value → Reading (List α) := each .notList read

def tuple (read : Value → Reading α) : Value → Reading (List α) := each .notTuple read

/-- A label that goes into a set at once, so that every part of it is looked
at. -/
def member (v : Value) : Reading Value :=
  if v.isMutable then fail .notHashable
  else if v.isHashable then .ok v
  else fail .memberNotHashable

def frozenSet (v : Value) : Reading (List Value) :=
  (each .notFrozenSet member v).map distinct

def component (read : Value → Reading α) (vs : List Value) (i : Nat) : Reading α :=
  placed (.index i) <|
    match vs[i]? with
    | some v => read v
    | none => fail .missing

def pair (read : Value → Reading α) (v : Value) : Reading (α × α) :=
  match elements? v with
  | none => fail .notTuple
  | some vs =>
    if 2 < vs.length then fail .tooLong
    else Except.ok Prod.mk |> next (component read vs 0) |> next (component read vs 1)

end Reading

end FiniteAutomata
