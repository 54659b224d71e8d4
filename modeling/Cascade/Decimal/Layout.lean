import Cascade.Decimal.Shortest

/-! # Decimals as text

A layout says which decimals are written with all their places and which with an exponent.
-/
namespace Cascade.Decimal

/-- Bounds of the power of ten of the leading digit for writing without an exponent. -/
structure Layout where
  least : Int
  greatest : Int
deriving DecidableEq, Repr

def leading (d : Decimal) : Int := d.exponent + ((Nat.toDigits 10 d.digits).length - 1)

/-- All places, with at least one on either side of the point. -/
def positional (d : Decimal) : List Char :=
  let ds := Nat.toDigits 10 d.digits
  if 0 ≤ d.exponent then ds ++ List.replicate d.exponent.toNat '0' ++ ['.', '0']
  else if 0 ≤ d.leading then
    ds.take (d.leading.toNat + 1) ++ '.' :: ds.drop (d.leading.toNat + 1)
  else '0' :: '.' :: List.replicate ((-d.leading).toNat - 1) '0' ++ ds

/-- One digit before the point, the others after it, then the signed power of ten. -/
def scientific (d : Decimal) : List Char :=
  let mantissa := match Nat.toDigits 10 d.digits with
    | c :: c' :: rest => c :: '.' :: c' :: rest
    | ds => ds
  let sign := if d.leading < 0 then '-' else '+'
  mantissa ++ 'e' :: sign :: Nat.toDigits 10 d.leading.natAbs

def Layout.text (layout : Layout) (d : Decimal) : List Char :=
  if layout.least ≤ d.leading ∧ d.leading ≤ layout.greatest then d.positional else d.scientific

/-- The text of a finite float. Zero keeps its sign. -/
def Layout.floatText (layout : Layout) (x : Float) : List Char :=
  let magnitude := if x == 0 then ['0', '.', '0'] else layout.text (shortest x)
  if x.toBits >>> 63 = 0 then magnitude else '-' :: magnitude

end Cascade.Decimal
