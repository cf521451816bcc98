/-!
# Numeric kinds

A number is an integer of a fixed width and signedness, or a binary floating
point number of 32 or 64 bits. `NumKind.promote` is the kind in which two
numbers of possibly different kinds are combined.
-/

namespace TreeCode

/-- The fixed-width integer kinds. -/
inductive IntKind where
  | i8 | i16 | i32 | i64 | u8 | u16 | u32 | u64
  deriving DecidableEq, Repr, Inhabited

namespace IntKind

/-- Width in bits. -/
def bits : IntKind → Nat
  | i8 | u8 => 8
  | i16 | u16 => 16
  | i32 | u32 => 32
  | i64 | u64 => 64

def isSigned : IntKind → Bool
  | i8 | i16 | i32 | i64 => true
  | u8 | u16 | u32 | u64 => false

/-- Spelling of the kind in types. -/
def name : IntKind → String
  | i8 => "i8" | i16 => "i16" | i32 => "i32" | i64 => "i64"
  | u8 => "u8" | u16 => "u16" | u32 => "u32" | u64 => "u64"

/-- Spelling of the kind as a tag of values and instructions. -/
def tag : IntKind → String
  | i8 => "I8" | i16 => "I16" | i32 => "I32" | i64 => "I64"
  | u8 => "U8" | u16 => "U16" | u32 => "U32" | u64 => "U64"

/-- The signed kind that arithmetic on `bits`-bit operands runs in. Nothing
runs below 32 bits or above 64. -/
def signedOf (bits : Nat) : IntKind := if bits ≤ 32 then i32 else i64

/-- The unsigned kind that arithmetic on `bits`-bit operands runs in. -/
def unsignedOf (bits : Nat) : IntKind := if bits ≤ 32 then u32 else u64

/-- The kind in which two integers are combined. Operands of one signedness
keep it. A mixed pair takes a signed kind one step wider than the unsigned
operand, capped at 64 bits. -/
def promote (a b : IntKind) : IntKind :=
  let widest := max a.bits b.bits
  match a.isSigned, b.isSigned with
  | true, true => signedOf widest
  | false, false => unsignedOf widest
  | true, false => signedOf (max (b.bits * 2) widest)
  | false, true => signedOf (max (a.bits * 2) widest)

end IntKind

/-- The numeric kinds. -/
inductive NumKind where
  | int (k : IntKind)
  | f32
  | f64
  deriving DecidableEq, Repr, Inhabited

namespace NumKind

/-- The kind of array indices, shift counts and plain integer literals. -/
abbrev i32 : NumKind := .int .i32

abbrev i64 : NumKind := .int .i64

def bits : NumKind → Nat
  | int k => k.bits
  | f32 => 32
  | f64 => 64

def isFloat : NumKind → Bool
  | int _ => false
  | _ => true

def isInteger (k : NumKind) : Bool := !k.isFloat

/-- Floating point kinds count as signed. -/
def isSigned : NumKind → Bool
  | int k => k.isSigned
  | _ => true

def name : NumKind → String
  | int k => k.name
  | f32 => "f32"
  | f64 => "f64"

def tag : NumKind → String
  | int k => k.tag
  | f32 => "F32"
  | f64 => "F64"

/-- All kinds. -/
def all : List NumKind :=
  [.int .i8, .int .i16, .int .i32, .int .i64, .int .u8, .int .u16, .int .u32, .int .u64, f32, f64]

/-- The kind in which two numbers are combined: a floating point operand
decides it, the wider of two. -/
def promote : NumKind → NumKind → NumKind
  | int a, int b => int (IntKind.promote a b)
  | int _, b => b
  | a, int _ => a
  | f32, f32 => f32
  | _, _ => f64

end NumKind

end TreeCode
