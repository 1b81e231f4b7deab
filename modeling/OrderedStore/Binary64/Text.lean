import OrderedStore.Binary64.Shortest

/-!
# Writing doubles

Two layouts are in use. Scores in messages are written with all their digits before the point, however
many, and without a point when none are needed. Scores in listings always have a point or an exponent:
the exponent where the absolute value is below `10 ^ -4` or from `10 ^ 16` on.
-/

namespace OrderedStore.Binary64

/-- The decisions of a layout. -/
structure Layout where
  /-- Whether a whole number is written with `.0`. -/
  wholePoint : Bool
  /-- The powers of ten, first and past the last, between which no exponent is written. -/
  positional : Option (Int × Int)

/-- The layout of scores in messages. -/
def Layout.full : Layout := ⟨false, none⟩

/-- The layout of scores in listings. -/
def Layout.listing : Layout := ⟨true, some (-4, 16)⟩

/-- Digits with the point `e` places behind the first of them. -/
def positionalText (layout : Layout) (digits : List Char) (e : Int) : List Char :=
  if e < 0 then ['0', '.'] ++ List.replicate (-e - 1).toNat '0' ++ digits
  else
    let whole := e.toNat + 1
    if digits.length ≤ whole then
      digits ++ List.replicate (whole - digits.length) '0' ++ (if layout.wholePoint then ['.', '0'] else [])
    else digits.take whole ++ ['.'] ++ digits.drop whole

/-- Digits with the point behind the first of them, and a power of ten. -/
def exponentText (digits : List Char) (e : Int) : List Char :=
  digits.take 1 ++ (if digits.length = 1 then [] else '.' :: digits.drop 1) ++ ['e'] ++
    (if e < 0 then ['-'] else []) ++ Decimal.digits e.natAbs

/-- A finite double without its sign. -/
def unsignedText (layout : Layout) (x : Binary64) : List Char :=
  if x.magnitude = 0 then positionalText layout ['0'] 0
  else
    let d := x.shortest
    let digits := Decimal.digits d.digits
    let e := d.exponent + digits.length - 1
    if layout.positional.all fun (low, high) => low ≤ e ∧ e < high then positionalText layout digits e
    else exponentText digits e

/-- A double in a layout. -/
def text (layout : Layout) (x : Binary64) : String :=
  if x.isNaN then "NaN"
  else
    let unsigned := if x.isInfinite then ['i', 'n', 'f'] else unsignedText layout x
    String.ofList (if x.negative then '-' :: unsigned else unsigned)

end OrderedStore.Binary64
