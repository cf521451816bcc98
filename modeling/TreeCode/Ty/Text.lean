import TreeCode.Ty.Basic
import TreeCode.Text.Quoted

/-!
# Types in text

`Ty.shown` is the spelling of a type in messages, `Ty.detailed` its full form
in listings, which opens up the definitions it mentions.
-/

namespace TreeCode

open Text

mutual

/-- Spelling of a type in messages. -/
def Ty.shown : Ty → String
  | .void => "void"
  | .bool => "bool"
  | .num k => k.name
  | .str => "str"
  | .nullable t => t.shown ++ "?"
  | .array t => t.shown ++ "[]"
  | .struct d => d.name
  | .function ps r => "(" ++ ", ".intercalate (Ty.shownList ps) ++ ") -> " ++ r.shown
  | .exception => "exception"
  | .object => "object"

def Ty.shownList : List Ty → List String
  | [] => []
  | t :: ts => t.shown :: Ty.shownList ts

end

mutual

/-- Full form of a type in listings. -/
def Ty.detailed : Ty → String
  | .void => "Void"
  | .bool => "Bool"
  | .num k => tagged "Num" k.tag
  | .str => "Str"
  | .nullable t => tagged "Nullable" t.detailed
  | .array t => tagged "Array" t.detailed
  | .struct d => tagged "Struct" d.detailed
  | .function ps r =>
    tagged "Function"
      (record "Signature" [("params", bracketed (Ty.detailedList ps)), ("ret", r.detailed)])
  | .exception => "Exception"
  | .object => "Object"

def Ty.detailedList : List Ty → List String
  | [] => []
  | t :: ts => t.detailed :: Ty.detailedList ts

/-- Full form of a definition: its own fields; the rest is left out. -/
def StructDef.detailed : StructDef → String
  | .mk _ name kind _ fields =>
    "StructDef \x7b name: " ++ quoted name ++ ", kind: " ++ kind.tag ++ ", fields: " ++
      bracketed (FieldDef.detailedList fields) ++ ", .. \x7d"

def FieldDef.detailed : FieldDef → String
  | .mk name ty => record "FieldDef" [("name", quoted name), ("ty", ty.detailed)]

def FieldDef.detailedList : List FieldDef → List String
  | [] => []
  | f :: fs => f.detailed :: FieldDef.detailedList fs

end

/-- Full form of a signature in listings. -/
def Signature.detailed (s : Signature) : String :=
  record "Signature" [("params", bracketed (Ty.detailedList s.params)), ("ret", s.ret.detailed)]

end TreeCode
