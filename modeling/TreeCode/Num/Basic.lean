import TreeCode.Num.Float
import TreeCode.Num.Kind
import TreeCode.Decimal.Layout

/-!
# Numbers

`Num` is a number of some kind. Integers are words of their kind's width, so
every operation wraps by construction; `Num.toInt?` is the integer a word
stands for. Conversions never fail: integers keep their low bits, floating
point numbers are cut toward zero and clamped to the target's range.
-/

namespace TreeCode

/-- Binary arithmetic operators. -/
inductive ArithOp where
  | add | sub | mul | div | rem | bitAnd | bitOr | bitXor | shl | shr
  deriving DecidableEq, Repr, Inhabited

/-- Ordering comparisons. -/
inductive CmpOp where
  | lt | le | gt | ge
  deriving DecidableEq, Repr, Inhabited

namespace ArithOp

def isShift : ArithOp → Bool
  | shl | shr => true
  | _ => false

def tag : ArithOp → String
  | add => "Add" | sub => "Sub" | mul => "Mul" | div => "Div" | rem => "Rem"
  | bitAnd => "BitAnd" | bitOr => "BitOr" | bitXor => "BitXor" | shl => "Shl" | shr => "Shr"

/-- All operators. -/
def all : List ArithOp := [add, sub, mul, div, rem, bitAnd, bitOr, bitXor, shl, shr]

end ArithOp

namespace CmpOp

def tag : CmpOp → String
  | lt => "Lt" | le => "Le" | gt => "Gt" | ge => "Ge"

/-- All comparisons. -/
def all : List CmpOp := [lt, le, gt, ge]

/-- Whether the comparison accepts operands in this order; an unordered pair
is accepted by none. -/
def accepts : CmpOp → Option Ordering → Bool
  | _, none => false
  | lt, some o => o == .lt
  | le, some o => o != .gt
  | gt, some o => o == .gt
  | ge, some o => o != .lt

end CmpOp

namespace IntKind

/-- The integer that a word of the kind stands for. -/
def toInt (k : IntKind) (v : BitVec k.bits) : Int :=
  if k.isSigned then v.toInt else v.toNat

/-- The word congruent to an integer. -/
def ofInt (k : IntKind) (n : Int) : BitVec k.bits := BitVec.ofInt k.bits n

/-- Least integer of the kind. -/
def least (k : IntKind) : Int := if k.isSigned then -(Nat.pow 2 (k.bits - 1) : Int) else 0

/-- Greatest integer of the kind. -/
def greatest (k : IntKind) : Int :=
  if k.isSigned then (Nat.pow 2 (k.bits - 1) : Int) - 1 else (Nat.pow 2 k.bits : Int) - 1

/-- Arithmetic on words of one kind, shifts excepted; `none` when the divisor
is zero. -/
def arith (k : IntKind) (op : ArithOp) (a b : BitVec k.bits) : Option (BitVec k.bits) :=
  match op with
  | .add => some (a + b)
  | .sub => some (a - b)
  | .mul => some (a * b)
  | .div => if b == 0 then none else some (if k.isSigned then a.sdiv b else a.udiv b)
  | .rem => if b == 0 then none else some (if k.isSigned then a.srem b else a.umod b)
  | .bitAnd => some (a &&& b)
  | .bitOr => some (a ||| b)
  | .bitXor => some (a ^^^ b)
  | .shl | .shr => some a

/-- Shift of a word by a count, which is taken modulo the width. A right shift
of a signed word copies the sign. -/
def shift (k : IntKind) (left : Bool) (a : BitVec k.bits) (count : Int) : BitVec k.bits :=
  let n := (count % k.bits).toNat
  if left then a <<< n
  else if k.isSigned then a.sshiftRight n
  else a >>> n

end IntKind

namespace Binary

/-- A number cut toward zero and clamped to `least ..= greatest`; NaN gives
zero. -/
def Parts.toInt (least greatest : Int) : Parts → Int
  | .nan => 0
  | .infinite negative => if negative then least else greatest
  | .finite negative m e =>
    let size : Int := (m * Nat.pow 2 e.toNat / Nat.pow 2 (-e).toNat : Nat)
    max least (min greatest (if negative then -size else size))

end Binary

/-- A number of some kind. -/
inductive Num where
  | int (k : IntKind) (v : BitVec k.bits)
  | f32 (x : Single)
  | f64 (x : Double)
  deriving DecidableEq, Repr

namespace Num

/-- A 32-bit signed integer. -/
abbrev i32 (n : Int) : Num := .int .i32 (BitVec.ofInt 32 n)

def kind : Num → NumKind
  | int k _ => .int k
  | f32 _ => .f32
  | f64 _ => .f64

/-- The integer that the number is, if it is of an integer kind. -/
def toInt? : Num → Option Int
  | int k v => some (k.toInt v)
  | _ => none

/-- Value of an index or length: words of 64 bits count as signed. -/
def toIndex? : Num → Option Int
  | int k v => some (BitVec.ofInt 64 (k.toInt v)).toInt
  | _ => none

/-- Equality as the language sees it: NaN differs from itself, and zeros of
both signs are equal. -/
def equals : Num → Num → Bool
  | int k a, int k' b => k == k' && a.toNat == b.toNat
  | f32 a, f32 b => a.toFloat == b.toFloat
  | f64 a, f64 b => a.toFloat == b.toFloat
  | _, _ => false

/-- Equality of representation. -/
def identical : Num → Num → Bool
  | f32 a, f32 b => a.toBits == b.toBits
  | f64 a, f64 b => a.toBits == b.toBits
  | a, b => a.equals b

/-- Order of two floating point numbers, from their own comparisons; `none` when
either is NaN. -/
def orderFloat {α : Type} [LT α] [DecidableLT α] [BEq α] (a b : α) : Option Ordering :=
  if a < b then some .lt else if b < a then some .gt else if a == b then some .eq else none

/-- Compares two numbers of one kind; `none` when the kinds differ. -/
def compare? (op : CmpOp) : Num → Num → Option Bool
  | int k a, int k' b =>
    if k = k' then some (op.accepts (some (Ord.compare (k.toInt a) (k'.toInt b)))) else none
  | f32 a, f32 b => some (op.accepts (orderFloat a.toFloat b.toFloat))
  | f64 a, f64 b => some (op.accepts (orderFloat a.toFloat b.toFloat))
  | _, _ => none

/-- Bit patterns of the NaNs that operations give. -/
def nan64 : Nat := 0x7ff8000000000000

def nan32 : Nat := 0x7fc00000

def rem64 (a b : Double) : Double :=
  ⟨(Binary.remainderBits .double nan64 a.toBits.toNat b.toBits.toNat).toUInt64⟩

def rem32 (a b : Single) : Single :=
  ⟨(Binary.remainderBits .single nan32 a.toBits.toNat b.toBits.toNat).toUInt32⟩

/-- Why an arithmetic operation on numbers has no result. -/
inductive ArithError where
  | divideByZero
  /-- A bitwise operation on floating point numbers. -/
  | bitwiseOnFloat
  /-- The operands are of different kinds, or a shift has no integer operand. -/
  | kinds
  deriving DecidableEq, Repr

/-- Arithmetic on two numbers of one kind, shifts excepted. -/
def arith (op : ArithOp) : Num → Num → Except ArithError Num
  | int k a, int k' b =>
    if h : k' = k then
      match k.arith op a (h ▸ b) with
      | some v => .ok (.int k v)
      | none => .error .divideByZero
    else .error .kinds
  | f32 a, f32 b =>
    match op with
    | .add => .ok (f32 (.ofFloat (a.toFloat + b.toFloat)))
    | .sub => .ok (f32 (.ofFloat (a.toFloat - b.toFloat)))
    | .mul => .ok (f32 (.ofFloat (a.toFloat * b.toFloat)))
    | .div => .ok (f32 (.ofFloat (a.toFloat / b.toFloat)))
    | .rem => .ok (f32 (rem32 a b))
    | _ => .error .bitwiseOnFloat
  | f64 a, f64 b =>
    match op with
    | .add => .ok (f64 (.ofFloat (a.toFloat + b.toFloat)))
    | .sub => .ok (f64 (.ofFloat (a.toFloat - b.toFloat)))
    | .mul => .ok (f64 (.ofFloat (a.toFloat * b.toFloat)))
    | .div => .ok (f64 (.ofFloat (a.toFloat / b.toFloat)))
    | .rem => .ok (f64 (rem64 a b))
    | _ => .error .bitwiseOnFloat
  | _, _ => .error .kinds

/-- Shift of an integer by a 32-bit signed count. -/
def shift (left : Bool) : Num → Num → Except ArithError Num
  | int k a, int .i32 count => .ok (.int k (k.shift left a count.toInt))
  | _, _ => .error .kinds

/-- Sign change; unsigned integers have none. -/
def negate? : Num → Option Num
  | int k v => if k.isSigned then some (int k (-v)) else none
  | f32 x => some (f32 x.neg)
  | f64 x => some (f64 x.neg)

/-- Bitwise complement of an integer. -/
def complement? : Num → Option Num
  | int k v => some (int k (~~~v))
  | _ => none

/-- An integer as a 64-bit floating point number, rounded once. -/
def floatOfInt (n : Int) : Double :=
  let size := (UInt64.ofNat n.natAbs).toFloat
  .ofFloat (if n < 0 then -size else size)

/-- An integer as a 32-bit floating point number, rounded once. -/
def float32OfInt (n : Int) : Single :=
  let size := (UInt64.ofNat n.natAbs).toFloat32
  .ofFloat (if n < 0 then -size else size)

/-- The 64-bit number equal to a 32-bit one. -/
def widen (x : Single) : Double :=
  ⟨(Binary.convertBits .single .double nan64 x.toBits.toNat).toUInt64⟩

/-- The 32-bit number nearest to a 64-bit one. -/
def narrow (x : Double) : Single :=
  ⟨(Binary.convertBits .double .single nan32 x.toBits.toNat).toUInt32⟩

/-- A floating point number as an integer of the given kind. -/
def intOfFloat (k : IntKind) (x : Double) : BitVec k.bits :=
  k.ofInt ((Binary.decode .double x.toBits.toNat).toInt k.least k.greatest)

/-- Conversion to another kind. -/
def convert : Num → NumKind → Num
  | int k v, .int k' => int k' (k'.ofInt (k.toInt v))
  | int k v, .f32 => f32 (float32OfInt (k.toInt v))
  | int k v, .f64 => f64 (floatOfInt (k.toInt v))
  | f32 x, .int k' => int k' (intOfFloat k' (widen x))
  | f32 x, .f32 => f32 x
  | f32 x, .f64 => f64 (widen x)
  | f64 x, .int k' => int k' (intOfFloat k' x)
  | f64 x, .f32 => f32 (narrow x)
  | f64 x, .f64 => f64 x

/-- A 64-bit signed integer converted to the given kind. -/
def ofInt64 (k : NumKind) (n : Int) : Num := (Num.int .i64 (BitVec.ofInt 64 n)).convert k

/-- A number as messages show it; 32-bit numbers are widened first. -/
def shown : Num → String
  | int k v => toString (k.toInt v)
  | f32 x => Decimal.Layout.plain.write .double (widen x).toBits.toNat
  | f64 x => Decimal.Layout.plain.write .double x.toBits.toNat

/-- A number as listings show it, without its tag. -/
def digits : Num → String
  | int k v => toString (k.toInt v)
  | f32 x => Decimal.Layout.detailed.write .single x.toBits.toNat
  | f64 x => Decimal.Layout.detailed.write .double x.toBits.toNat

/-- A number as listings show it. -/
def detailed (n : Num) : String := n.kind.tag ++ "(" ++ n.digits ++ ")"

end Num

end TreeCode
