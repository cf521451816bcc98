import TreeCode.Num.Basic
import TreeCode.Ty.Basic

/-!
# Values

Run-time values. Arrays, class instances, functions, exceptions, cells and
open units have an identity: the value holds a reference, and what it refers
to lives in the store or the world. Value structs are plain data, copied with
the value that holds them.

## Main definitions

* `Value`, `Exception` — values and exception objects.
* `Value.identity?` — the identity of values that are shared.
* `Value.equals` — the language's equality.
* `Value.sharesLiteral` — whether two literals may share a table entry.
* `Value.isA` — the run-time type test.
-/

namespace TreeCode

/-- What an exception reports. -/
inductive ExceptionKind where
  | divideByZero
  | nullReference
  | indexOutOfRange
  | invalidCast
  | invalidOperation
  | argument
  /-- A kind named by the host or by the program. -/
  | user (name : String)
  deriving DecidableEq, Repr, Inhabited

/-- Name of a kind in messages. -/
def ExceptionKind.name : ExceptionKind → String
  | divideByZero => "DivideByZero"
  | nullReference => "NullReference"
  | indexOutOfRange => "IndexOutOfRange"
  | invalidCast => "InvalidCast"
  | invalidOperation => "InvalidOperation"
  | argument => "Argument"
  | user name => name

/-- The kinds that the language itself raises. -/
def ExceptionKind.builtin : List ExceptionKind :=
  [.divideByZero, .nullReference, .indexOutOfRange, .invalidCast, .invalidOperation, .argument]

/-- An exception object. -/
structure Exception where
  kind : ExceptionKind
  message : String
  deriving DecidableEq, Repr, Inhabited

namespace Exception

def divideByZero : Exception := ⟨.divideByZero, "Attempted to divide by zero."⟩

def nullReference : Exception :=
  ⟨.nullReference, "Object reference not set to an instance of an object."⟩

def indexOutOfRange (index : Int) (length : Nat) : Exception :=
  ⟨.indexOutOfRange,
    s!"Index {index} was outside the bounds of the array (length {length})."⟩

def noValue : Exception := ⟨.invalidOperation, "Nullable object must have a value."⟩

def nothingCaught : Exception := ⟨.invalidOperation, "No exception is being handled."⟩

def negativeLength (length : Int) : Exception :=
  ⟨.argument, s!"Array length {length} is negative."⟩

/-- An exception in messages. -/
def shown (e : Exception) : String := e.kind.name ++ ": " ++ e.message

end Exception

/-- Where a value struct lives that is changed in place. -/
inductive Address where
  /-- A local slot of the running frame. -/
  | slot (index : Nat)
  /-- A shared variable. -/
  | cell (ref : Nat)
  deriving DecidableEq, Repr, Inhabited

/-- A run-time value. -/
inductive Value where
  | unit
  | null
  | bool (b : Bool)
  | num (n : Num)
  | str (s : String)
  | array (ref : Nat)
  /-- An instance of a value struct. `origin` names the written constant that
  the instance is; instances made while running have none. -/
  | struct (origin : Option Nat) (d : StructDef) (fields : List Value)
  /-- An instance of a class. -/
  | object (ref : Nat) (d : StructDef)
  | function (ref : Nat) (sig : Signature)
  /-- An exception object; `stamp` tells equal ones apart. -/
  | exception (stamp : Nat) (e : Exception)
  /-- A variable shared between a unit and the closures that capture it. -/
  | cell (ref : Nat)
  | address (a : Address)
  /-- A compiled unit that is not yet bound to the variables it captures. -/
  | openUnit (ref : Nat) (name : Option String)

instance : Inhabited Value := ⟨.unit⟩

/-- The identity of a shared value. -/
inductive Identity where
  | array (ref : Nat)
  | object (ref : Nat)
  | function (ref : Nat)
  | exception (stamp : Nat)
  | cell (ref : Nat)
  | openUnit (ref : Nat)
  deriving DecidableEq, Repr

namespace Value

/-- A 32-bit signed integer. -/
abbrev i32 (n : Int) : Value := .num (.i32 n)

def isNull : Value → Bool
  | null => true
  | _ => false

def numKind? : Value → Option NumKind
  | num n => some n.kind
  | _ => none

def bool? : Value → Option Bool
  | bool b => some b
  | _ => none

/-- The integer of a 32-bit signed value. -/
def i32? : Value → Option Int
  | num (.int .i32 v) => some v.toInt
  | _ => none

/-- Any integer value as an index or length. -/
def index? : Value → Option Int
  | num n => n.toIndex?
  | _ => none

def str? : Value → Option String
  | str s => some s
  | _ => none

/-- The identity of values that are shared rather than copied. Strings have
none. -/
def identity? : Value → Option Identity
  | array r => some (.array r)
  | object r _ => some (.object r)
  | function r _ => some (.function r)
  | exception s _ => some (.exception s)
  | cell r => some (.cell r)
  | openUnit r _ => some (.openUnit r)
  | _ => none

/-- The class of an instance of a struct or class. -/
def structDef? : Value → Option StructDef
  | struct _ d _ => some d
  | object _ d => some d
  | _ => none

mutual

/-- Equality as the language's `==` computes it: shared values by identity,
value structs field by field, numbers of one kind by value. -/
def equals : Value → Value → Bool
  | unit, unit => true
  | null, null => true
  | bool a, bool b => a == b
  | num a, num b => a.equals b
  | str a, str b => a == b
  | struct _ d fs, struct _ e gs => d == e && equalsAll fs gs
  | array a, array b => a == b
  | object a _, object b _ => a == b
  | function a _, function b _ => a == b
  | exception a _, exception b _ => a == b
  | cell a, cell b => a == b
  | openUnit a _, openUnit b _ => a == b
  | _, _ => false

/-- Equality of fields, as far as both lists go. -/
def equalsAll : List Value → List Value → Bool
  | a :: as, b :: bs => equals a b && equalsAll as bs
  | _, _ => true

end

/-- Whether two literals can share one entry of a literal table. Floating
point numbers share when their bits agree, value structs when they are one
written constant. -/
def sharesLiteral : Value → Value → Bool
  | num a, num b => a.identical b
  | struct (some a) _ _, struct (some b) _ _ => a == b
  | struct .., struct .. => false
  | a, b => a.equals b

/-- The type test of catch clauses and checked casts. Null is an instance of
nothing. -/
def isA : Value → Ty → Bool
  | null, _ => false
  | unit, _ => false
  | _, .object => true
  | v, .nullable t => isA v t
  | bool _, .bool => true
  | num n, .num k => n.kind == k
  | str _, .str => true
  | array _, .array _ => true
  | function .., .function .. => true
  | exception .., .exception => true
  | struct _ d _, .struct e => d == e
  | object _ d, .struct e => d.inherits e
  | _, _ => false

/-- Whether an argument fits the shape that a compiled unit expects. -/
def fits : Value → Shape → Bool
  | unit, .unit => true
  | bool _, .bool => true
  | num n, .num k => n.kind == k
  | str _, .str => true
  | null, .str => true
  | struct .., .struct => true
  | unit, .nullable => false
  | _, .nullable => true
  | unit, .reference => false
  | _, .reference => true
  | _, _ => false

end Value

end TreeCode
