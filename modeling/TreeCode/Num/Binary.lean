/-!
# Binary floating point numbers as integers

A finite binary floating point number is `±m · 2^e` for natural `m` and an
integer `e`. `Binary.Format` holds the widths of a format, `Binary.decode`
reads the three parts off a bit pattern, and `Binary.encode` writes the number
of the format that is nearest. The remainder of a division is exact, so it is
computed here on the integers (`Binary.remainder`).
-/

namespace TreeCode.Binary

/-- Widths of the fraction and exponent fields of a format. -/
structure Format where
  fractionBits : Nat
  exponentBits : Nat

namespace Format

/-- The 32-bit format. -/
def single : Format := ⟨23, 8⟩

/-- The 64-bit format. -/
def double : Format := ⟨52, 11⟩

/-- The value of the exponent field of infinities and NaNs. -/
def topExponent (f : Format) : Nat := Nat.pow 2 f.exponentBits - 1

/-- Exponent of the unit in the last place of the smallest numbers. -/
def minExponent (f : Format) : Int :=
  2 - (Nat.pow 2 (f.exponentBits - 1) : Int) - (f.fractionBits : Int)

def signBit (f : Format) : Nat := Nat.pow 2 (f.fractionBits + f.exponentBits)

end Format

/-- What a bit pattern stands for. -/
inductive Parts where
  | nan
  | infinite (negative : Bool)
  /-- The number `±mantissa · 2^exponent`. -/
  | finite (negative : Bool) (mantissa : Nat) (exponent : Int)
  deriving DecidableEq, Repr

/-- Reads the parts of a bit pattern. -/
def decode (f : Format) (bits : Nat) : Parts :=
  let fraction := bits % Nat.pow 2 f.fractionBits
  let exponent := bits / Nat.pow 2 f.fractionBits % Nat.pow 2 f.exponentBits
  let negative := bits / f.signBit % 2 == 1
  if exponent == f.topExponent then
    if fraction == 0 then .infinite negative else .nan
  else if exponent == 0 then
    .finite negative fraction f.minExponent
  else
    .finite negative (fraction + Nat.pow 2 f.fractionBits) (f.minExponent + (exponent - 1))

/-- A quotient rounded to the nearest integer, a half to the even one. -/
def roundDiv (n d : Nat) : Nat :=
  let q := n / d
  let r := n % d
  if 2 * r > d || (2 * r == d && q % 2 == 1) then q + 1 else q

/-- The bit pattern of an infinity without its sign. -/
def Format.infinity (f : Format) : Nat := f.topExponent * Nat.pow 2 f.fractionBits

/-- The bit pattern of the number of the format nearest to
`±mantissa · 2^exponent`, of two equally near ones that with an even mantissa;
beyond the greatest number it is an infinity. -/
def encode (f : Format) (negative : Bool) (mantissa : Nat) (exponent : Int) : Nat :=
  let sign := if negative then f.signBit else 0
  if mantissa == 0 then sign
  else
    -- Exponent of the last place when the leading bit takes its place.
    let place := max f.minExponent (exponent + (mantissa.log2 : Int) - f.fractionBits)
    let scaled :=
      if place ≤ exponent then mantissa * Nat.pow 2 (exponent - place).toNat
      else roundDiv mantissa (Nat.pow 2 (place - exponent).toNat)
    if scaled < Nat.pow 2 f.fractionBits then sign + scaled
    else
      -- Rounding up to a power of two carries into the exponent field.
      let field := (place - f.minExponent).toNat + 1
      sign + min f.infinity (field * Nat.pow 2 f.fractionBits + (scaled - Nat.pow 2 f.fractionBits))

/-- The bit pattern in the format `target` of a number of the format `source`,
`nanBits` for NaN. -/
def convertBits (source target : Format) (nanBits bits : Nat) : Nat :=
  match decode source bits with
  | .nan => nanBits
  | .infinite negative => (if negative then target.signBit else 0) + target.infinity
  | .finite negative m e => encode target negative m e

/-- Remainder of the division truncated toward zero, with the sign of the
dividend. `none` stands for NaN. -/
def remainder : Parts → Parts → Option Parts
  | .finite negative m e, .infinite _ => some (.finite negative m e)
  | .finite negative m e, .finite _ m' e' =>
    if m' == 0 then none
    else
      let place := min e e'
      let left := m * Nat.pow 2 (e - place).toNat
      let right := m' * Nat.pow 2 (e' - place).toNat
      some (.finite negative (left % right) place)
  | _, _ => none

/-- Bit pattern of the remainder of two bit patterns, `nanBits` for NaN. -/
def remainderBits (f : Format) (nanBits a b : Nat) : Nat :=
  match remainder (decode f a) (decode f b) with
  | some (.finite negative m e) => encode f negative m e
  | _ => nanBits

end TreeCode.Binary
