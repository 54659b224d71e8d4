/-! # Shortest decimals

A binary value `mantissa * 2 ^ exponent` stands for all reals that round to it. Its shortest decimal
is taken from the coarsest grid `10 ^ k` with a point among these reals; of two such points the
nearer one is taken, and of two equally near ones the even one.
-/
namespace Cascade

structure Decimal where
  digits : Nat
  exponent : Int
deriving DecidableEq, Repr, Inhabited

namespace Decimal

/-- The reals between `low` and `high` units of `2 ^ exponent`, ends included if `closed`, around
the value `centre`. -/
structure Interval where
  low : Nat
  centre : Nat
  high : Nat
  exponent : Int
  closed : Bool
deriving DecidableEq, Repr

/-- What the leading bit of a normal mantissa stands for; it is not among the stored ones. -/
def Interval.leadingBit : Nat := 0x10000000000000

/-- The reals that round to the finite, non-zero magnitude with the given binary64 fields. Units are
quarters of the last place, since the gap below a power of two is half the gap above it. -/
def Interval.ofFields (biased fraction : Nat) : Interval :=
  let mantissa := if biased = 0 then fraction else fraction + leadingBit
  { low := 4 * mantissa - (if fraction = 0 ∧ 1 < biased then 1 else 2)
    centre := 4 * mantissa
    high := 4 * mantissa + 2
    exponent := (if biased = 0 then 1 else biased) - 1077
    closed := mantissa % 2 = 0 }

/-- The reals that round to `x`, its sign apart. -/
def Interval.ofFloat (x : Float) : Interval :=
  let bits := x.toBits.toNat
  ofFields (bits / leadingBit % 0x800) (bits % leadingBit)

namespace Interval

/-- One unit of the interval and one step of the grid `10 ^ k`, in a common scale. -/
def scale (i : Interval) (k : Int) : Nat × Nat :=
  (Nat.pow 2 i.exponent.toNat * Nat.pow 10 (-k).toNat,
    Nat.pow 2 (-i.exponent).toNat * Nat.pow 10 k.toNat)

def Contains (i : Interval) (k : Int) (c : Nat) : Prop :=
  let (unit, step) := i.scale k
  if i.closed then i.low * unit ≤ c * step ∧ c * step ≤ i.high * unit
  else i.low * unit < c * step ∧ c * step < i.high * unit

instance (i : Interval) (k : Int) (c : Nat) : Decidable (i.Contains k c) := by
  unfold Contains
  dsimp only
  infer_instance

/-- The point of the grid `10 ^ k` for the interval: one of the two neighbours of its centre. -/
def onGrid? (i : Interval) (k : Int) : Option Nat :=
  let (unit, step) := i.scale k
  let below := i.centre * unit / step
  let rest := 2 * (i.centre * unit % step)
  if i.Contains k below then
    if i.Contains k (below + 1) ∧ (step < rest ∨ step = rest ∧ below % 2 = 1) then some (below + 1)
    else some below
  else if i.Contains k (below + 1) then some (below + 1)
  else none

/-- Tries `n` grids, from `10 ^ k` to finer ones. -/
def search (i : Interval) : Nat → Int → Option Decimal
  | 0, _ => none
  | n + 1, k => match i.onGrid? k with
    | some c => some ⟨c, k⟩
    | none => search i n (k - 1)

/-- A power of ten that is not below the interval. -/
def top (i : Interval) : Nat := (i.exponent + i.high.log2 + 1).toNat / 3 + 1

/-- The grid `10 ^ (-1076)` holds the centre of every interval of a float, so the search ends. -/
def shortest (i : Interval) : Decimal := (i.search (i.top + 1077) i.top).getD ⟨0, 0⟩

end Interval

def shortest (x : Float) : Decimal := (Interval.ofFloat x).shortest

end Decimal

end Cascade
