import OrderedStore.Binary64.Basic
import OrderedStore.Text.Decimal

/-!
# Shortest decimals

The decimal that a double is written by is the one with the fewest digits among those nearer to it than
to any other double, and of several with that few digits the nearest one.

All reals that round to `m * 2 ^ q` lie between the midpoints towards its two neighbours; the midpoints
themselves belong to it when `m` is even. The search tries one digit, then two, and so on: on the grid
of decimals with that many digits only the two neighbours of the double can be the nearest.
-/

namespace OrderedStore.Binary64

/-- `digits * 10 ^ exponent`. -/
structure Decimal10 where
  digits : Nat
  exponent : Int
  deriving DecidableEq, Repr

/-- A positive value and its rounding interval, all over one denominator. -/
structure Interval where
  value : Nat
  low : Nat
  high : Nat
  den : Nat
  /-- Whether the ends of the interval round to the value. -/
  closed : Bool

/-- The rounding interval of a finite double other than zero. Below a power of two the neighbour is only
half as far away. -/
def interval (x : Binary64) : Interval :=
  let (m, q) := x.parts
  let near := m = 0x10000000000000 ∧ leastExponent < q
  let unit := Nat.pow 2 q.toNat
  { value := 4 * m * unit
    low := (if near then 4 * m - 1 else 4 * m - 2) * unit
    high := (4 * m + 2) * unit
    den := 4 * Nat.pow 2 (-q).toNat
    closed := m % 2 = 0 }

namespace Interval

/-- The least `k` with `value < 10 ^ k`. -/
def scale (i : Interval) : Int :=
  if i.den ≤ i.value then Decimal.length (i.value / i.den)
  else 1 - (Decimal.length ((i.den + i.value - 1) / i.value - 1) : Int)

/-- A decimal and an end of the interval, brought to one denominator. -/
def compareEnd (i : Interval) (d : Decimal10) (edge : Nat) : Ordering :=
  compare (d.digits * Nat.pow 10 d.exponent.toNat * i.den) (edge * Nat.pow 10 (-d.exponent).toNat)

/-- Whether a decimal rounds to the value. -/
def admits (i : Interval) (d : Decimal10) : Bool :=
  let low := i.compareEnd d i.low
  let high := i.compareEnd d i.high
  (low == .gt || (i.closed && low == .eq)) && (high == .lt || (i.closed && high == .eq))

/-- The best decimal whose last digit stands for `10 ^ e`, if one rounds to the value. Of two that lie
equally near the greater is taken. -/
def onGrid? (i : Interval) (e : Int) : Option Decimal10 :=
  let num := i.value * Nat.pow 10 (-e).toNat
  let den := i.den * Nat.pow 10 e.toNat
  let below : Decimal10 := ⟨num / den, e⟩
  let above : Decimal10 := ⟨num / den + 1, e⟩
  match i.admits below, i.admits above with
  | true, true => some (if 2 * (num % den) < den then below else above)
  | true, false => some below
  | false, true => some above
  | false, false => none

end Interval

/-- Divide out factors of ten, at most `fuel` of them. -/
def Decimal10.strip : (fuel : Nat) → Decimal10 → Decimal10
  | 0, d => d
  | fuel + 1, d => if d.digits % 10 = 0 then strip fuel ⟨d.digits / 10, d.exponent + 1⟩ else d

/-- The exact value of a finite double. -/
def exact (x : Binary64) : Decimal10 :=
  let (m, q) := x.parts
  if q < 0 then ⟨m * Nat.pow 5 (-q).toNat, q⟩ else ⟨m * Nat.pow 2 q.toNat, 0⟩

/-- The decimal that a finite double other than zero is written by. Seventeen digits tell any two
doubles apart. -/
def shortest (x : Binary64) : Decimal10 :=
  let i := x.interval
  let found := (List.range 17).findSome? fun (n : Nat) => i.onGrid? (i.scale - (n + 1 : Nat))
  (found.getD x.exact).strip 20

end OrderedStore.Binary64
