import TreeCode.Value.Basic

/-!
# Default values

Every type has a default: zero, false, null, or for a value struct the
instance whose fields all have theirs.
-/

namespace TreeCode

mutual

/-- The zero, false or null value of a type. -/
def Ty.default : Ty → Value
  | .void => .unit
  | .bool => .bool false
  | .num k => .num (.ofInt64 k 0)
  | .struct d => StructDef.default d
  | .nullable _ | .str | .array _ | .function _ _ | .exception | .object => .null

/-- The default of a struct type: an instance of a value struct, null for a
class. -/
def StructDef.default : StructDef → Value
  | .mk i n .value none fs => .struct none (.mk i n .value none fs) (FieldDef.defaults fs)
  | .mk i n .value (some b) fs =>
    .struct none (.mk i n .value (some b) fs) (StructDef.defaults b ++ FieldDef.defaults fs)
  | .mk _ _ .reference _ _ => .null

/-- Defaults of all fields of an instance, in layout order. -/
def StructDef.defaults : StructDef → List Value
  | .mk _ _ _ none fs => FieldDef.defaults fs
  | .mk _ _ _ (some b) fs => StructDef.defaults b ++ FieldDef.defaults fs

def FieldDef.defaults : List FieldDef → List Value
  | [] => []
  | .mk _ t :: fs => Ty.default t :: FieldDef.defaults fs

end

/-- The fields of a new instance: the given ones, then defaults for the rest of
the layout. -/
def StructDef.fill (d : StructDef) (given : List Value) : List Value :=
  given ++ d.defaults.drop given.length

end TreeCode
