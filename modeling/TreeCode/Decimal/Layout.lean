import TreeCode.Decimal.Shortest

/-!
# Layouts of decimal numbers

A `Layout` holds the choices of one way of writing floating point numbers;
`Layout.write` applies it to the shortest digits of a number.
-/

namespace TreeCode.Decimal

/-- How floating point numbers are written. -/
structure Layout where
  /-- Least and greatest magnitude written without an exponent, where a number
  `0.d… · 10^x` has magnitude `x`; `none` for all of them. -/
  positional : Option (Int × Int)
  /-- Written after a number without a fraction. -/
  wholeMark : String
  nan : String
  infinity : String

/-- The layout of values in messages meant for the user: no exponents, and
every number has a point. -/
def Layout.plain : Layout := ⟨none, ".", "nan", "inf"⟩

/-- The layout of values in listings and traces: an exponent below `10^-4` and
from `10^16` on. -/
def Layout.detailed : Layout := ⟨some (-3, 16), ".0", "NaN", "inf"⟩

/-- Writes `0.d… · 10^x` without an exponent. -/
def positionalText (wholeMark digits : String) (x : Int) : String :=
  if x ≤ 0 then
    "0." ++ "".pushn '0' (-x).toNat ++ digits
  else if digits.length ≤ x.toNat then
    digits ++ "".pushn '0' (x.toNat - digits.length) ++ wholeMark
  else
    String.ofList (digits.toList.take x.toNat) ++ "." ++
      String.ofList (digits.toList.drop x.toNat)

/-- Writes `0.d… · 10^x` as a number between 1 and 10 with an exponent. -/
def exponentText (digits : String) (x : Int) : String :=
  let point := if digits.length ≤ 1 then "" else "."
  String.ofList (digits.toList.take 1) ++ point ++
    String.ofList (digits.toList.drop 1) ++ "e" ++ toString (x - 1)

/-- Writes a number of the given format. -/
def Layout.write (l : Layout) (f : Binary.Format) (bits : Nat) : String :=
  match Binary.decode f bits with
  | .nan => l.nan
  | .infinite negative => (if negative then "-" else "") ++ l.infinity
  | .finite negative m e =>
    let sign := if negative then "-" else ""
    if m == 0 then sign ++ "0" ++ l.wholeMark
    else
      let d := shortest f m e
      let digits := toString d.digits
      let isPositional := match l.positional with
        | none => true
        | some (least, greatest) => least ≤ d.exponent && d.exponent ≤ greatest
      sign ++ if isPositional then positionalText l.wholeMark digits d.exponent
        else exponentText digits d.exponent

end TreeCode.Decimal
