/-!
# Floating point words

A floating point number is kept as its bits, and what it stands for is read off them where
an operation needs it. So NaNs of different signs and payloads stay apart, and whether two
literals are the same is asked of their bits. An operation that makes a NaN gives the
positive quiet one without a payload; copies and changes of sign keep the bits.
-/

namespace TreeCode

/-- A 32-bit floating point number. -/
structure Single where
  toBits : UInt32
  deriving DecidableEq, Repr, Inhabited

/-- A 64-bit floating point number. -/
structure Double where
  toBits : UInt64
  deriving DecidableEq, Repr, Inhabited

namespace Single

/-- The number that the bits stand for; NaNs are one there. -/
def toFloat (x : Single) : Float32 := .ofBits x.toBits

/-- The bits of the result of an operation. -/
def ofFloat (x : Float32) : Single := ⟨x.toBits⟩

instance : Coe Float32 Single := ⟨ofFloat⟩

def isNaN (x : Single) : Bool := x.toFloat.isNaN

/-- Sign change, which NaNs take part in. -/
def neg (x : Single) : Single := ⟨x.toBits ^^^ 0x80000000⟩

end Single

namespace Double

/-- The number that the bits stand for; NaNs are one there. -/
def toFloat (x : Double) : Float := .ofBits x.toBits

/-- The bits of the result of an operation. -/
def ofFloat (x : Float) : Double := ⟨x.toBits⟩

instance : Coe Float Double := ⟨ofFloat⟩

def isNaN (x : Double) : Bool := x.toFloat.isNaN

/-- Sign change, which NaNs take part in. -/
def neg (x : Double) : Double := ⟨x.toBits ^^^ 0x8000000000000000⟩

end Double

end TreeCode
