import TreeCode.Num.Binary

/-!
# The shortest decimal that reads back

For a positive number `m · 2^e` of a binary format, `shortest` finds the
decimal with the fewest significant digits that lies in the interval of reals
rounding to it, and among those of that length the one nearest to the number.
A tie goes to the larger one.

The search is exact: the number and the ends of its interval are fractions
over one common denominator, and for each digit count the two neighbours on
that decimal grid are tested.
-/

namespace TreeCode.Decimal

/-- A decimal `0.d₁d₂… · 10^exponent`, with `digits` the number written by the
digits. -/
structure Digits where
  digits : Nat
  exponent : Int
  deriving DecidableEq, Repr

/-- A positive number and the ends of the interval of reals that round to it,
all as numerators over `den`. -/
structure Interval where
  low : Nat
  value : Nat
  high : Nat
  den : Nat
  /-- Whether the ends themselves round to the number. -/
  closed : Bool

/-- The rounding interval of `m · 2^e`. The lower neighbour is nearer when `m`
is a power of two at the bottom of its exponent range. -/
def Interval.of (f : Binary.Format) (m : Nat) (e : Int) : Interval :=
  let atBottom := m == Nat.pow 2 f.fractionBits && e != f.minExponent
  let up := Nat.pow 2 e.toNat
  let den := 4 * Nat.pow 2 (-e).toNat
  { low := (4 * m - if atBottom then 1 else 2) * up
    value := 4 * m * up
    high := (4 * m + 2) * up
    den := den
    closed := m % 2 == 0 }

/-- Whether `k · 10^p` lies in the interval. -/
def Interval.holds (i : Interval) (k : Nat) (p : Int) : Bool :=
  let left := k * Nat.pow 10 p.toNat * i.den
  let scale := Nat.pow 10 (-p).toNat
  if i.closed then i.low * scale ≤ left && left ≤ i.high * scale
  else i.low * scale < left && left < i.high * scale

/-- The least `x` with `value < 10^x`, searched upward from `start`. -/
def magnitude (i : Interval) : Nat → Int → Int
  | 0, x => x
  | fuel + 1, x =>
    if i.value * Nat.pow 10 (-x).toNat < i.den * Nat.pow 10 x.toNat then x
    else magnitude i fuel (x + 1)

/-- Tries one digit count: the neighbours of the value among the multiples of
`10^p`. -/
def nearest (i : Interval) (p : Int) : Option Nat :=
  let num := i.value * Nat.pow 10 (-p).toNat
  let den := i.den * Nat.pow 10 p.toNat
  let below := num / den
  let rest := num % den
  match i.holds below p && below != 0, i.holds (below + 1) p with
  | true, true => some (if 2 * rest < den then below else below + 1)
  | true, false => some below
  | false, true => some (below + 1)
  | false, false => none

/-- Searches the digit counts in increasing order. -/
def search (i : Interval) (x : Int) : Nat → Nat → Digits
  | 0, n => ⟨i.value * Nat.pow 10 (n - x).toNat / i.den, x⟩
  | fuel + 1, n =>
    match nearest i (x - n) with
    | some k => if k == Nat.pow 10 n then ⟨1, x + 1⟩ else ⟨k, x⟩
    | none => search i x fuel (n + 1)

/-- Drops trailing zeros of the digits. -/
def trim : Nat → Nat → Nat
  | 0, k => k
  | fuel + 1, k => if k % 10 == 0 && k != 0 then trim fuel (k / 10) else k

/-- The shortest decimal that reads back as `m · 2^e`, for `m ≠ 0`. -/
def shortest (f : Binary.Format) (m : Nat) (e : Int) : Digits :=
  let i := Interval.of f m e
  -- The number has `e + log₂ m` as its binary magnitude, and `log₁₀ 2 ≈ 0.30103`.
  let start := (e + (m.log2 : Int)) * 30103 / 100000 - 1
  let x := magnitude i 6 start
  let found := search i x 20 1
  { found with digits := trim 20 found.digits }

end TreeCode.Decimal
