/-!
# Decimal text of binary fractions

A finite double is written with the fewest decimal digits that read back as the same double; of
two such numbers of equal length the nearer one is taken, and of two equally near the even one.
`Decimal.Style` says how digits and exponent are laid out.
-/

namespace Trellis.Decimal

/-- The number `mantissa · 2 ^ exponent`, and whether the double below it is only half as far away
as the one above. -/
structure Binary where
  mantissa : Nat
  exponent : Int
  narrowBelow : Bool
deriving Repr, DecidableEq

/-- The magnitude of a finite double. -/
def Binary.ofFloat (x : Float) : Binary :=
  let bits := x.toBits.toNat
  let fraction := bits % Nat.pow 2 52
  let biased := bits / Nat.pow 2 52 % Nat.pow 2 11
  if biased = 0 then ⟨fraction, -1074, false⟩
  else ⟨fraction + Nat.pow 2 52, Int.ofNat biased - 1075, fraction = 0 ∧ 1 < biased⟩

/-- The number `digits · 10 ^ exponent`. -/
structure Scaled where
  digits : Nat
  exponent : Int
deriving Repr, DecidableEq

/-- Drop zeros at the end of the digits. -/
def Scaled.trim : (fuel : Nat) → Scaled → Scaled
  | 0, s => s
  | fuel + 1, s =>
    if s.digits ≠ 0 ∧ s.digits % 10 = 0 then Scaled.trim fuel ⟨s.digits / 10, s.exponent + 1⟩
    else s

/-- An interval of reals with a point in it, all in quarters of a unit of the last binary place,
as numerators over one denominator. -/
structure Interval where
  lower : Nat
  point : Nat
  upper : Nat
  denominator : Nat
  closed : Bool

/-- The reals that round to `b`. -/
def Binary.interval (b : Binary) : Interval :=
  let up := Nat.pow 2 (b.exponent - 2).toNat
  { lower := (4 * b.mantissa - (if b.narrowBelow then 1 else 2)) * up
    point := 4 * b.mantissa * up
    upper := (4 * b.mantissa + 2) * up
    denominator := Nat.pow 2 (2 - b.exponent).toNat
    closed := b.mantissa % 2 = 0 }

namespace Interval

/-- The same interval in units of `10 ^ exponent`. -/
def rescale (i : Interval) (exponent : Int) : Interval :=
  let times := Nat.pow 10 (-exponent).toNat
  { i with
    lower := i.lower * times
    point := i.point * times
    upper := i.upper * times
    denominator := i.denominator * Nat.pow 10 exponent.toNat }

def contains (i : Interval) (k : Nat) : Bool :=
  let scaled := k * i.denominator
  if i.closed then i.lower ≤ scaled ∧ scaled ≤ i.upper
  else i.lower < scaled ∧ scaled < i.upper

/-- The whole number in the interval that is nearest to its point, if there is one among the
point's two neighbours. -/
def nearest? (i : Interval) : Option Nat :=
  let below := i.point / i.denominator
  let twice := 2 * i.point
  let middle := (2 * below + 1) * i.denominator
  let preferBelow := twice < middle ∨ (twice = middle ∧ below % 2 = 0)
  match i.contains below, i.contains (below + 1) with
  | true, true => some (if preferBelow then below else below + 1)
  | true, false => some below
  | false, true => some (below + 1)
  | false, false => none

/-- The exponent of the point's leading decimal digit; the point is above `10 ^ -400`. -/
def leading (i : Interval) : Int :=
  Int.ofNat (Nat.toDigits 10 (i.point * Nat.pow 10 400 / i.denominator)).length - 401

end Interval

/-- Seventeen digits tell all doubles apart. -/
def digitLimit : Nat := 17

/-- The shortest decimal number that rounds to `b`, which is not zero. -/
def shortest (b : Binary) : Scaled :=
  let i := b.interval
  let leading := i.leading
  let found := (List.range digitLimit).findSome? fun n =>
    let exponent := leading - Int.ofNat n
    (i.rescale exponent).nearest?.map fun digits => Scaled.mk digits exponent
  match found with
  | some s => s.trim (digitLimit + 1)
  | none => ⟨0, 0⟩

/-- How a number is laid out: positionally between two exponents of its leading digit, and
otherwise with a signed exponent. -/
structure Style where
  leastPositional : Int
  greatestPositional : Int

/-- Text of `digits · 10 ^ exponent`; positional text always has a point in it. -/
def Scaled.text (style : Style) (s : Scaled) : String :=
  let digits := Nat.toDigits 10 s.digits
  let leading := s.exponent + Int.ofNat digits.length - 1
  let zeros (n : Int) : List Char := List.replicate n.toNat '0'
  String.ofList <|
    if style.leastPositional ≤ leading ∧ leading ≤ style.greatestPositional then
      if 0 ≤ s.exponent then digits ++ zeros s.exponent ++ ['.', '0']
      else if 0 ≤ leading then
        digits.take (leading.toNat + 1) ++ '.' :: digits.drop (leading.toNat + 1)
      else ['0', '.'] ++ zeros (-leading - 1) ++ digits
    else
      let tail := match digits.drop 1 with
        | [] => []
        | rest => '.' :: rest
      let sign := if leading < 0 then '-' else '+'
      digits.take 1 ++ tail ++ 'e' :: sign :: Nat.toDigits 10 leading.natAbs

/-- Text of a finite double. -/
def ofFloat (style : Style) (x : Float) : String :=
  let sign := if x.toBits.toNat / Nat.pow 2 63 = 1 then "-" else ""
  let b := Binary.ofFloat x
  sign ++ if b.mantissa = 0 then "0.0" else (shortest b).text style

end Trellis.Decimal
