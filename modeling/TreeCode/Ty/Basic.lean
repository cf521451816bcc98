import TreeCode.Num.Kind

/-!
# Types

The static types of expressions, and the struct and class definitions they
mention. A definition carries its own fields and its base, so everything said
about layouts and inheritance is a plain recursion; methods and properties,
which may mention any type, are registered apart from it. Definitions with
equal names are told apart by their `id`.

## Main definitions

* `Ty`, `StructDef` — types and definitions.
* `StructDef.layout`, `StructDef.slotOf?` — the layout of instances.
* `Ty.accepts` — where a value may be stored without conversion.
* `Shape.of` — what a compiled unit checks about an argument on entry.
-/

namespace TreeCode

/-- How instances of a definition are held. -/
inductive StructKind where
  /-- Copied on assignment and argument passing. -/
  | value
  /-- Shared by reference; may derive from a base. -/
  | reference
  deriving DecidableEq, Repr, Inhabited

def StructKind.tag : StructKind → String
  | value => "Value"
  | reference => "Class"

mutual

/-- The static type of an expression. -/
inductive Ty where
  | void
  | bool
  | num (k : NumKind)
  | str
  | nullable (t : Ty)
  | array (element : Ty)
  | struct (d : StructDef)
  | function (params : List Ty) (ret : Ty)
  | exception
  | object

/-- A struct or class: its own fields, after those of its base. -/
inductive StructDef where
  | mk (id : Nat) (name : String) (kind : StructKind) (base : Option StructDef)
      (fields : List FieldDef)

/-- A declared field. -/
inductive FieldDef where
  | mk (name : String) (ty : Ty)

end

instance : Inhabited Ty := ⟨.void⟩
instance : Inhabited StructDef := ⟨.mk 0 "" .value none []⟩
instance : Inhabited FieldDef := ⟨.mk "" .void⟩

/-- A function signature. -/
structure Signature where
  params : List Ty
  ret : Ty
  deriving Inhabited

namespace FieldDef

def name : FieldDef → String
  | mk n _ => n

def ty : FieldDef → Ty
  | mk _ t => t

end FieldDef

namespace StructDef

def id : StructDef → Nat
  | mk i _ _ _ _ => i

def name : StructDef → String
  | mk _ n _ _ _ => n

def kind : StructDef → StructKind
  | mk _ _ k _ _ => k

def base : StructDef → Option StructDef
  | mk _ _ _ b _ => b

/-- The fields that the definition itself declares. -/
def fields : StructDef → List FieldDef
  | mk _ _ _ _ fs => fs

end StructDef

/-! ## Equality -/

mutual

/-- Equality of types, as a test. -/
def Ty.beq : Ty → Ty → Bool
  | .void, .void => true
  | .bool, .bool => true
  | .num a, .num b => a == b
  | .str, .str => true
  | .nullable a, .nullable b => Ty.beq a b
  | .array a, .array b => Ty.beq a b
  | .struct a, .struct b => StructDef.beq a b
  | .function ps r, .function qs s => Ty.beqList ps qs && Ty.beq r s
  | .exception, .exception => true
  | .object, .object => true
  | _, _ => false

def Ty.beqList : List Ty → List Ty → Bool
  | [], [] => true
  | a :: as, b :: bs => Ty.beq a b && Ty.beqList as bs
  | _, _ => false

/-- Equality of definitions, as a test. -/
def StructDef.beq : StructDef → StructDef → Bool
  | .mk i n k b fs, .mk j m l c gs =>
    i == j && n == m && k == l && StructDef.beqOption b c && FieldDef.beqList fs gs

def StructDef.beqOption : Option StructDef → Option StructDef → Bool
  | none, none => true
  | some a, some b => StructDef.beq a b
  | _, _ => false

def FieldDef.beq : FieldDef → FieldDef → Bool
  | .mk n t, .mk m u => n == m && Ty.beq t u

def FieldDef.beqList : List FieldDef → List FieldDef → Bool
  | [], [] => true
  | a :: as, b :: bs => FieldDef.beq a b && FieldDef.beqList as bs
  | _, _ => false

end

mutual

theorem Ty.eq_of_beq : ∀ {a b : Ty}, Ty.beq a b = true → a = b
  | .void, b, h => by cases b <;> simp_all [Ty.beq]
  | .bool, b, h => by cases b <;> simp_all [Ty.beq]
  | .num _, b, h => by cases b <;> simp_all [Ty.beq]
  | .str, b, h => by cases b <;> simp_all [Ty.beq]
  | .nullable t, b, h => by
    cases b <;> simp only [Ty.beq, Bool.false_eq_true] at h
    exact congrArg _ (Ty.eq_of_beq h)
  | .array t, b, h => by
    cases b <;> simp only [Ty.beq, Bool.false_eq_true] at h
    exact congrArg _ (Ty.eq_of_beq h)
  | .struct d, b, h => by
    cases b <;> simp only [Ty.beq, Bool.false_eq_true] at h
    exact congrArg _ (StructDef.eq_of_beq h)
  | .function ps r, b, h => by
    cases b <;> simp only [Ty.beq, Bool.false_eq_true, Bool.and_eq_true] at h
    rw [Ty.eq_of_beqList h.1, Ty.eq_of_beq h.2]
  | .exception, b, h => by cases b <;> simp_all [Ty.beq]
  | .object, b, h => by cases b <;> simp_all [Ty.beq]
termination_by structural x => x

theorem Ty.eq_of_beqList : ∀ {as bs : List Ty}, Ty.beqList as bs = true → as = bs
  | [], bs, h => by cases bs <;> simp_all [Ty.beqList]
  | a :: as, bs, h => by
    cases bs with
    | nil => simp [Ty.beqList] at h
    | cons b bs =>
      simp only [Ty.beqList, Bool.and_eq_true] at h
      rw [Ty.eq_of_beq h.1, Ty.eq_of_beqList h.2]
termination_by structural x => x

theorem StructDef.eq_of_beq : ∀ {a b : StructDef}, StructDef.beq a b = true → a = b
  | .mk i n k b fs, .mk j m l c gs, h => by
    simp only [StructDef.beq, Bool.and_eq_true, beq_iff_eq] at h
    obtain ⟨⟨⟨⟨hi, hn⟩, hk⟩, hb⟩, hf⟩ := h
    rw [hi, hn, hk, StructDef.eq_of_beqOption hb, FieldDef.eq_of_beqList hf]
termination_by structural x => x

theorem StructDef.eq_of_beqOption :
    ∀ {a b : Option StructDef}, StructDef.beqOption a b = true → a = b
  | none, b, h => by cases b <;> simp_all [StructDef.beqOption]
  | some a, b, h => by
    cases b <;> simp only [StructDef.beqOption, Bool.false_eq_true] at h
    exact congrArg _ (StructDef.eq_of_beq h)
termination_by structural x => x

theorem FieldDef.eq_of_beq : ∀ {a b : FieldDef}, FieldDef.beq a b = true → a = b
  | .mk n t, .mk m u, h => by
    simp only [FieldDef.beq, Bool.and_eq_true, beq_iff_eq] at h
    rw [h.1, Ty.eq_of_beq h.2]
termination_by structural x => x

theorem FieldDef.eq_of_beqList :
    ∀ {as bs : List FieldDef}, FieldDef.beqList as bs = true → as = bs
  | [], bs, h => by cases bs <;> simp_all [FieldDef.beqList]
  | a :: as, bs, h => by
    cases bs with
    | nil => simp [FieldDef.beqList] at h
    | cons b bs =>
      simp only [FieldDef.beqList, Bool.and_eq_true] at h
      rw [FieldDef.eq_of_beq h.1, FieldDef.eq_of_beqList h.2]
termination_by structural x => x

end

mutual

theorem Ty.beq_refl : ∀ a : Ty, Ty.beq a a = true
  | .void | .bool | .str | .exception | .object => by simp [Ty.beq]
  | .num _ => by simp [Ty.beq]
  | .nullable t => by simp [Ty.beq, Ty.beq_refl t]
  | .array t => by simp [Ty.beq, Ty.beq_refl t]
  | .struct d => by simp [Ty.beq, StructDef.beq_refl d]
  | .function ps r => by simp [Ty.beq, Ty.beqList_refl ps, Ty.beq_refl r]

theorem Ty.beqList_refl : ∀ as : List Ty, Ty.beqList as as = true
  | [] => by simp [Ty.beqList]
  | a :: as => by simp [Ty.beqList, Ty.beq_refl a, Ty.beqList_refl as]

theorem StructDef.beq_refl : ∀ d : StructDef, StructDef.beq d d = true
  | .mk _ _ _ b fs => by
    simp [StructDef.beq, StructDef.beqOption_refl b, FieldDef.beqList_refl fs]

theorem StructDef.beqOption_refl : ∀ d : Option StructDef, StructDef.beqOption d d = true
  | none => by simp [StructDef.beqOption]
  | some d => by simp [StructDef.beqOption, StructDef.beq_refl d]

theorem FieldDef.beq_refl : ∀ f : FieldDef, FieldDef.beq f f = true
  | .mk _ t => by simp [FieldDef.beq, Ty.beq_refl t]

theorem FieldDef.beqList_refl : ∀ fs : List FieldDef, FieldDef.beqList fs fs = true
  | [] => by simp [FieldDef.beqList]
  | f :: fs => by simp [FieldDef.beqList, FieldDef.beq_refl f, FieldDef.beqList_refl fs]

end

instance : DecidableEq Ty := fun a b =>
  decidable_of_iff (Ty.beq a b = true) ⟨Ty.eq_of_beq, fun h => h ▸ Ty.beq_refl a⟩

instance : DecidableEq StructDef := fun a b =>
  decidable_of_iff (StructDef.beq a b = true)
    ⟨StructDef.eq_of_beq, fun h => h ▸ StructDef.beq_refl a⟩

instance : DecidableEq FieldDef := fun a b =>
  decidable_of_iff (FieldDef.beq a b = true)
    ⟨FieldDef.eq_of_beq, fun h => h ▸ FieldDef.beq_refl a⟩

deriving instance DecidableEq for Signature

/-! ## Layout and inheritance -/

namespace StructDef

/-- The fields of an instance in layout order: those of the base come first. -/
def layout : StructDef → List FieldDef
  | .mk _ _ _ none fs => fs
  | .mk _ _ _ (some b) fs => layout b ++ fs

/-- Number of fields of an instance. -/
def layoutSize : StructDef → Nat
  | .mk _ _ _ none fs => fs.length
  | .mk _ _ _ (some b) fs => layoutSize b + fs.length

/-- Position of the first field with the given name, and its type. -/
def slotIn (name : String) : List FieldDef → Option (Nat × Ty)
  | [] => none
  | f :: fs =>
    if f.name == name then some (0, f.ty) else (slotIn name fs).map fun (i, t) => (i + 1, t)

/-- Position in the layout of the most derived field with the given name. -/
def slotOf? (name : String) : StructDef → Option (Nat × Ty)
  | .mk _ _ _ none fs => slotIn name fs
  | .mk _ _ _ (some b) fs =>
    match slotIn name fs with
    | some (i, t) => some (layoutSize b + i, t)
    | none => slotOf? name b

/-- The definition and its bases, most derived first. -/
def lineage : StructDef → List StructDef
  | d@(.mk _ _ _ none _) => [d]
  | d@(.mk _ _ _ (some b) _) => d :: lineage b

/-- Whether `other` is the definition itself or one of its bases. -/
def inherits (d other : StructDef) : Bool := d.lineage.contains other

end StructDef

/-! ## Types -/

namespace Ty

abbrev i32 : Ty := .num .i32

/-- The type with null added, once. -/
def toNullable : Ty → Ty
  | nullable t => nullable t
  | t => nullable t

def isVoid : Ty → Bool
  | void => true
  | _ => false

def isNullable : Ty → Bool
  | nullable _ => true
  | _ => false

/-- The type without one level of null. -/
def underlying : Ty → Ty
  | nullable t => t
  | t => t

def numKind? : Ty → Option NumKind
  | num k => some k
  | _ => none

/-- Numeric kind of a type or of the type under a nullable one. -/
def liftedNumKind? (t : Ty) : Option NumKind := t.underlying.numKind?

def struct? : Ty → Option StructDef
  | struct d => some d
  | _ => none

/-- Types whose values may be null without being nullable. -/
def isReference : Ty → Bool
  | str | array _ | function _ _ | exception | object => true
  | struct d => d.kind == .reference
  | _ => false

def isValueStruct : Ty → Bool
  | struct d => d.kind == .value
  | _ => false

def hasNull (t : Ty) : Bool := t.isNullable || t.isReference

/-- Whether a value of type `source` can be stored where `target` is expected
without a conversion. -/
def accepts (target source : Ty) : Bool :=
  target == source ||
    match target, source with
    | object, s => !s.isVoid
    | nullable t, s => t == s
    | struct b, struct d => d.inherits b
    | _, _ => false

end Ty

/-- The type of functions of a signature. -/
def Signature.ty (s : Signature) : Ty := .function s.params s.ret

/-- What the representation of a type tells about its values. -/
inductive Shape where
  | unit
  | bool
  | num (k : NumKind)
  | str
  | nullable
  | struct
  | reference
  /-- The closure record that a unit is bound to; no argument has it. -/
  | record
  deriving DecidableEq, Repr, Inhabited

namespace Shape

def of : Ty → Shape
  | .void => unit
  | .bool => bool
  | .num k => num k
  | .str => str
  | .nullable _ => nullable
  | .struct d => if d.kind == .value then struct else reference
  | .array _ | .function _ _ | .exception | .object => reference

def tag : Shape → String
  | unit => "Unit"
  | bool => "Bool"
  | num k => "Num(" ++ k.tag ++ ")"
  | str => "Str"
  | nullable => "Nullable"
  | struct => "Struct"
  | reference => "Reference"
  | record => "Record"

/-- All shapes but those of numbers. -/
def plain : List Shape := [unit, bool, str, nullable, struct, reference, record]

end Shape

end TreeCode
