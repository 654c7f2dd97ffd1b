import FiniteAutomata.Fault

/-!
# Sources of draws

A source is an endless sequence of draws and the number of them used so far.
Every random decision takes one draw: it looks at the number when it is
between places or integers, and at the fraction otherwise. So whatever answers
a generator gives within the bounds it is asked for, some source gives the
same ones.
-/

namespace FiniteAutomata

structure Draw where
  number : Int
  fraction : Rat
  fraction_nonneg : 0 ≤ fraction
  fraction_lt_one : fraction < 1

/-- The fraction is a multiple of `2 ^ -20`. -/
def Draw.ofInt (d : Int) : Draw where
  number := d
  fraction := mkRat (d % Nat.pow 2 20) (Nat.pow 2 20)
  fraction_nonneg := by
    rw [← Rat.divInt_ofNat]
    exact Rat.divInt_nonneg (Int.emod_nonneg d (by decide)) (by decide)
  fraction_lt_one := by
    rw [Rat.mkRat_eq_div, Rat.div_lt_iff (by decide), Rat.one_mul]
    exact Rat.intCast_lt_intCast.mpr (Int.emod_lt_of_pos d (by decide))

structure Source where
  stream : Nat → Draw
  used : Nat

/-- Random decisions that may end in a fault. Draws taken before a fault stay
used. -/
abbrev Sampling := ExceptT Fault (StateM Source)

namespace Source

def ofStream (numbers : Nat → Int) : Source := ⟨fun i => .ofInt (numbers i), 0⟩

def cyclic (numbers : List Int) : Source := ofStream fun i => numbers.getD (i % numbers.length) 0

/-! ## Congruential streams -/

/-- The map `x ↦ (factor · x + shift) mod 2 ^ 31`. -/
structure Affine where
  factor : Nat
  shift : Nat

def Affine.modulus : Nat := Nat.pow 2 31

def Affine.apply (f : Affine) (x : Nat) : Nat := (f.factor * x + f.shift) % Affine.modulus

def Affine.followedBy (f g : Affine) : Affine :=
  ⟨(g.factor * f.factor) % Affine.modulus, (g.factor * f.shift + g.shift) % Affine.modulus⟩

def Affine.iterate (f : Affine) (n : Nat) : Affine :=
  if n = 0 then ⟨1, 0⟩
  else
    let half := (f.followedBy f).iterate (n / 2)
    if n % 2 = 0 then half else f.followedBy half
termination_by n
decreasing_by omega

def generator : Affine := ⟨1103515245, 12345⟩

/-- The states that follow a seed, without their lowest eight bits. -/
def congruential (seed : Int) : Source :=
  ofStream fun i => (generator.iterate (i + 1)).apply (seed % Affine.modulus).toNat / Nat.pow 2 8

end Source

namespace Sampling

variable {α : Type}

def draw : Sampling Draw := do
  let s ← get
  set { s with used := s.used + 1 }
  return s.stream s.used

def between (low high : Int) : Sampling Int := do
  let d ← draw
  return low + d.number % (high - low + 1)

def choose [Inhabited α] (xs : List α) : Sampling α := do
  let d ← draw
  return xs.getD (d.number % xs.length).toNat default

def unit : Sampling Binary64 := do
  let d ← draw
  return .finite d.fraction

def uniform (low high : Binary64) : Sampling Binary64 := do
  let u ← unit
  return low.add ((high.sub low).mul u)

/-- Elements at different places; the last element of the pool fills each
gap. -/
def chooseDistinct [Inhabited α] : Nat → List α → Sampling (List α)
  | 0, _ => return []
  | count + 1, pool => do
    let d ← draw
    let j := (d.number % pool.length).toNat
    let rest := (pool.set j (pool.getLastD default)).dropLast
    let others ← chooseDistinct count rest
    return pool.getD j default :: others

end Sampling

end FiniteAutomata
